import PCode.Proofs.Frames.Runs

namespace PCode.Codegen

/-- The cell holds an address of the stack: the static link, the base of the caller or, until the
frame is entered, the base of the frame under construction before. -/
def StackFrame.Link (frame : StackFrame) (i : Nat) : Prop :=
  i = frame.base ∨ i = frame.base + 1 ∨ i = frame.base + 2 ∧ frame.owner = none

theorem StackFrame.Link.header {frame : StackFrame} {i : Nat} (h : frame.Link i) :
    frame.Header i := by
  unfold Header headerSize
  unfold Link at h
  omega

/-- The cells of the second memory below `top` are those of the first, three cells higher. The frame
at its bottom returns behind the code. -/
structure Relocated (L : Listing) (frames : List StackFrame) (top : Nat) (memory memory' : Memory) :
    Prop where
  capacity : memory'.capacity = memory.capacity
  links : ∀ frame ∈ frames, ∀ i, frame.Link (i + 3) →
    memory'.cell i = .ofAddress ((memory.cell (i + 3)).toAddress - 3)
  others : ∀ i < top, i ≠ 2 → (∀ frame ∈ frames, ¬ frame.Link (i + 3)) →
    memory'.cell i = memory.cell (i + 3)
  bottom : memory'.cell 2 = .ofAddress L.lines.length

namespace Relocated

variable {L : Listing} {frames : List StackFrame} {frame : StackFrame} {top i : Nat}
  {memory memory' : Memory} {c : Cell}

section

variable (h : Relocated L frames top memory memory')
include h

theorem put (hi : i ≠ 2) (hlink : ∀ frame ∈ frames, ¬ frame.Link (i + 3)) {top' : Nat}
    (htop : ∀ j < top', j ≠ i → j < top) :
    Relocated L frames top' (memory.put (i + 3) c) (memory'.put i c) := by
  constructor
  · simpa using h.capacity
  · intro frame hframe j hj
    have hne : j ≠ i := by
      intro heq
      subst heq
      exact hlink frame hframe hj
    rw [Memory.cell_put_of_ne hne, Memory.cell_put_of_ne (by omega)]
    exact h.links frame hframe j hj
  · intro j hj hbottom hnot
    by_cases heq : j = i
    · subst heq
      rw [Memory.cell_put_self, Memory.cell_put_self]
    · rw [Memory.cell_put_of_ne heq, Memory.cell_put_of_ne (by omega)]
      exact h.others j (htop j hj heq) hbottom hnot
  · rw [Memory.cell_put_of_ne (Ne.symm hi)]
    exact h.bottom

theorem lower {top' : Nat} (hle : top' ≤ top) : Relocated L frames top' memory memory' :=
  ⟨h.capacity, h.links, fun i hi => h.others i (by omega), h.bottom⟩

theorem write (htop : 2 < top) (hlinks : ∀ frame ∈ frames, ∀ i, frame.Link i → i < top + 3)
    (cells : List Cell) :
    Relocated L frames (top + cells.length) (memory.write (top + 3) cells)
      (memory'.write top cells) := by
  induction cells generalizing memory memory' top with
  | nil => exact h
  | cons c cells ih =>
    have hput : Relocated L frames (top + 1) (memory.put (top + 3) c) (memory'.put top c) := by
      apply h.put (by omega)
      · intro frame hframe hlink
        have := hlinks frame hframe _ hlink
        omega
      · omega
    have hrest := ih hput (by omega) fun frame hframe i hi =>
      Nat.lt_of_lt_of_le (hlinks frame hframe i hi) (by omega)
    rw [List.length_cons, Nat.add_comm cells.length, ← Nat.add_assoc]
    rw [Nat.add_right_comm top 1 3] at hrest
    exact hrest

theorem read {start count : Nat} (hstart : 2 < start)
    (hlinks : ∀ frame ∈ frames, ∀ i, frame.Link i → i < start + 3) (hcount : start + count ≤ top) :
    memory'.read start count = memory.read (start + 3) count := by
  rw [Memory.read_eq_iff]
  refine ⟨Memory.length_read, ?_⟩
  intro i c hi
  have hlt : i < count := by simpa using (List.getElem?_eq_some_iff.mp hi).1
  rw [Memory.getElem?_read hlt, Option.some.injEq, Nat.add_right_comm] at hi
  rw [← hi]
  apply h.others
  · omega
  · omega
  · intro frame hframe hlink
    have := hlinks frame hframe _ hlink
    omega

theorem opens (htop : 2 < top) (hlinks : ∀ frame ∈ frames, ∀ i, frame.Link i → i < top + 3)
    {link base next : Nat} (hlink : link < 2 ^ 64) (hbase : base < 2 ^ 64) (hnext : next < 2 ^ 64) :
    Relocated L (⟨top + 3, none⟩ :: frames) (top + 3)
      (((memory.put (top + 3) (.ofAddress link)).put (top + 3 + 1) (.ofAddress base)).put
        (top + 3 + 2) (.ofAddress next))
      (((memory'.put top (.ofAddress (link - 3))).put (top + 1) (.ofAddress (base - 3))).put
        (top + 2) (.ofAddress (next - 3))) := by
  constructor
  · simpa using h.capacity
  · intro frame hframe i hi
    rcases List.mem_cons.mp hframe with rfl | hframe
    · unfold StackFrame.Link at hi
      simp only at hi
      rcases hi with hi | hi | ⟨hi, -⟩
      · obtain rfl : i = top := by omega
        rw [Memory.cell_put_of_ne (by omega), Memory.cell_put_of_ne (by omega),
          Memory.cell_put_self, Memory.cell_put_of_ne (by omega), Memory.cell_put_of_ne (by omega),
          Memory.cell_put_self, Cell.toAddress_ofAddress hlink]
      · obtain rfl : i = top + 1 := by omega
        rw [Memory.cell_put_of_ne (by omega), Memory.cell_put_self,
          Memory.cell_put_of_ne (by omega), Nat.add_right_comm, Memory.cell_put_self,
          Cell.toAddress_ofAddress hbase]
      · obtain rfl : i = top + 2 := by omega
        rw [Memory.cell_put_self, Nat.add_right_comm, Memory.cell_put_self,
          Cell.toAddress_ofAddress hnext]
    · have hlt := hlinks frame hframe _ hi
      rw [Memory.cell_put_of_ne (by omega), Memory.cell_put_of_ne (by omega),
        Memory.cell_put_of_ne (by omega), Memory.cell_put_of_ne (by omega),
        Memory.cell_put_of_ne (by omega), Memory.cell_put_of_ne (by omega)]
      exact h.links frame hframe i hi
  · intro i hi hbottom hnot
    have hnew := hnot _ List.mem_cons_self
    unfold StackFrame.Link at hnew
    simp only [and_true] at hnew
    rw [Memory.cell_put_of_ne (by omega), Memory.cell_put_of_ne (by omega),
      Memory.cell_put_of_ne (by omega), Memory.cell_put_of_ne (by omega),
      Memory.cell_put_of_ne (by omega), Memory.cell_put_of_ne (by omega)]
    exact h.others i (by omega) hbottom fun frame hframe =>
      hnot frame (List.mem_cons_of_mem _ hframe)
  · rw [Memory.cell_put_of_ne (by omega), Memory.cell_put_of_ne (by omega),
      Memory.cell_put_of_ne (by omega)]
    exact h.bottom

end

theorem enters {base : Nat} {owner : Option (List String)}
    (h : Relocated L (⟨base + 3, none⟩ :: frames) top memory memory') (hbase : 2 < base)
    (hlinks : ∀ frame ∈ frames, ∀ i, frame.Link i → i < base + 3) (howner : owner ≠ none) :
    Relocated L (⟨base + 3, owner⟩ :: frames) top (memory.put (base + 2 + 3) c)
      (memory'.put (base + 2) c) := by
  have hlater : ∀ frame ∈ (⟨base + 3, owner⟩ : StackFrame) :: frames,
      ¬ frame.Link (base + 2 + 3) := by
    intro frame hframe hlink
    rcases List.mem_cons.mp hframe with rfl | hframe
    · unfold StackFrame.Link at hlink
      simp only [howner, and_false, or_false] at hlink
      omega
    · have := hlinks frame hframe _ hlink
      omega
  have hearlier : ∀ i, i ≠ base + 2 → ((⟨base + 3, none⟩ : StackFrame).Link (i + 3) ↔
      (⟨base + 3, owner⟩ : StackFrame).Link (i + 3)) := by
    intro i hi
    unfold StackFrame.Link
    simp only [howner]
    omega
  constructor
  · simpa using h.capacity
  · intro frame hframe i hi
    have hne : i ≠ base + 2 := by
      intro heq
      subst heq
      exact hlater frame hframe hi
    rw [Memory.cell_put_of_ne hne, Memory.cell_put_of_ne (by omega)]
    rcases List.mem_cons.mp hframe with rfl | hframe
    · exact h.links _ List.mem_cons_self i ((hearlier i hne).mpr hi)
    · exact h.links frame (List.mem_cons_of_mem _ hframe) i hi
  · intro i hi hbottom hnot
    by_cases heq : i = base + 2
    · subst heq
      rw [Memory.cell_put_self, Memory.cell_put_self]
    · rw [Memory.cell_put_of_ne heq, Memory.cell_put_of_ne (by omega)]
      apply h.others i hi hbottom
      intro frame hframe
      rcases List.mem_cons.mp hframe with rfl | hframe
      · rw [hearlier i heq]
        exact hnot _ List.mem_cons_self
      · exact hnot frame (List.mem_cons_of_mem _ hframe)
  · rw [Memory.cell_put_of_ne (by omega)]
    exact h.bottom

theorem below {base : Nat} (h : Relocated L (frame :: frames) top memory memory')
    (hbase : frame.base = base + 3) (hle : base ≤ top) :
    Relocated L frames base memory memory' := by
  refine ⟨h.capacity, fun other hother => h.links other (List.mem_cons_of_mem _ hother),
    ?_, h.bottom⟩
  intro i hi hbottom hnot
  apply h.others i (by omega) hbottom
  intro other hother hlink
  rcases List.mem_cons.mp hother with rfl | hother
  · have := hlink.header.1
    omega
  · exact hnot other hother hlink

end Relocated

/-- Static links lead to the same frames, three cells lower. Frames that lie too low belong to
`main`, and the links do not come there. -/
theorem Chained.relocated {L : Listing} {frames : List StackFrame} {path : List String}
    {base top k : Nat} {memory memory' : Memory} (h : Chained memory frames path base)
    (hmoved : Relocated L frames top memory memory') (hsmall : memory.capacity < 2 ^ 64)
    (hframes : ∀ frame ∈ frames, frame.base < memory.capacity)
    (hmain : ∀ frame ∈ frames, frame.owner = some ["main"] ∨ 3 ≤ frame.base)
    (hpath : ∀ j, 0 < j → path.drop j ≠ ["main"]) (hbase : path ≠ [] → 3 ≤ base)
    (hk : k ≤ path.length) : ∃ link, Machine.follow? memory k base = some link ∧
      Machine.follow? memory' k (base - 3) = some (link - 3) ∧ link < 2 ^ 64 ∧
      (k < path.length → 3 ≤ link) := by
  induction h generalizing k with
  | ground =>
    obtain rfl : k = 0 := by simpa using hk
    exact ⟨0, rfl, rfl, by omega, by simp⟩
  | @frame name outer base link hmem hcell _ hrest ih =>
    have hroom := hframes _ hmem
    have hlow := hbase (by simp)
    simp only at hroom
    cases k with
    | zero => exact ⟨base, rfl, rfl, by omega, fun _ => hlow⟩
    | succ k =>
      -- the frame that the link leads to is not the lowest one
      have hlink : outer ≠ [] → 3 ≤ link := by
        intro houter
        rcases hmain _ (hrest.mem houter) with howner | hle
        · exact absurd (Option.some.inj howner) (hpath 1 (by omega))
        · exact hle
      have hword : link < 2 ^ 64 := by
        cases hrest with
        | ground => exact Nat.two_pow_pos 64
        | frame hmem' _ _ _ =>
          have := hframes _ hmem'
          simp only at this
          omega
      have hcell' : memory'.cell (base - 3) = .ofAddress (link - 3) := by
        have hlinks := hmoved.links _ hmem (base - 3)
          (by unfold StackFrame.Link; simp only; omega)
        rw [Nat.sub_add_cancel hlow, hcell, Cell.toAddress_ofAddress hword] at hlinks
        exact hlinks
      obtain ⟨link', hfollow, hfollow', hrest⟩ := ih (fun j hj => hpath (j + 1) (by omega)) hlink
        (by simpa using hk)
      refine ⟨link', ?_, ?_, by simpa using hrest⟩
      · rw [Machine.follow?, Memory.get?_eq, if_pos hroom]
        simp only [hcell, Cell.toAddress_ofAddress hword]
        exact hfollow
      · rw [Machine.follow?, Memory.get?_eq, hmoved.capacity, if_pos (by omega)]
        simp only [hcell', Cell.toAddress_ofAddress (show link - 3 < 2 ^ 64 by omega)]
        exact hfollow'

section Ground

variable {L : Listing} {Δ : Context} {sites : Nat → Option Site} {memory : Memory}
  {inner ground : Levels}

theorem Levels.base_le_append : ground.base ≤ Levels.base (inner ++ ground) := by
  induction inner with
  | nil => exact Nat.le_refl _
  | cons level inner ih =>
    obtain ⟨opening, surplus⟩ := level
    simp only [List.cons_append]
    cases surplus with
    | none => exact ih
    | some surplus =>
      rw [Levels.base]
      omega

theorem Levels.path_append_ne_nil (hpath : ground.path ≠ []) :
    Levels.path (inner ++ ground) ≠ [] := by
  induction inner with
  | nil => exact hpath
  | cons level inner ih =>
    obtain ⟨opening, surplus⟩ := level
    cases surplus with
    | none => exact ih
    | some surplus => simp [Levels.path]

theorem Standing.edge_append (h : Standing L Δ sites memory (inner ++ ground)) :
    ground.edge ≤ Levels.edge (inner ++ ground) := by
  induction inner with
  | nil => exact Nat.le_refl _
  | cons level inner ih =>
    have hbelow := h.edge_le_below
    have hrest := ih h.1
    exact Nat.le_trans hrest (Nat.le_trans hbelow (Nat.le_add_right _ _))

theorem Standing.frames_append (h : Standing L Δ sites memory (inner ++ ground))
    {frame : StackFrame} (hframe : frame ∈ Levels.frames (inner ++ ground)) :
    frame ∈ ground.frames ∨ ground.edge ≤ frame.base := by
  induction inner with
  | nil => exact .inl hframe
  | cons level inner ih =>
    rcases List.mem_cons.mp hframe with rfl | hframe
    · exact .inr (Nat.le_trans h.1.edge_append h.edge_le_below)
    · exact ih h.1 hframe

theorem Levels.Moves.keeps {m m' : Machine} {i : Instruction} {levels levels' rest : Levels}
    {opening : Opening} {surplus : Nat} (h : Levels.Moves L m i m' levels levels')
    (hlevels : levels = inner ++ ⟨opening, some surplus⟩ :: rest) :
    (∃ inner', levels' = inner' ++ ⟨opening, some surplus⟩ :: rest) ∨ inner = [] ∧ i.op = .ret := by
  cases h with
  | stays => exact .inl ⟨inner, hlevels⟩
  | opens =>
    rw [hlevels]
    exact .inl ⟨_ :: inner, rfl⟩
  | enters =>
    cases inner with
    | nil => cases hlevels
    | cons level inner =>
      cases hlevels
      exact .inl ⟨_ :: inner, rfl⟩
  | leaves hret =>
    cases inner with
    | nil => exact .inr ⟨rfl, hret⟩
    | cons level inner =>
      cases hlevels
      exact .inl ⟨inner, rfl⟩

end Ground

theorem Levels.eq_of_frames {levels : Levels} {base : Nat} {path : List String}
    {frames : List StackFrame} (h : levels.frames = ⟨base, some path⟩ :: frames) :
    ∃ opening surplus rest, levels = ⟨opening, some surplus⟩ :: rest ∧
      Levels.address rest opening.depth = base ∧ opening.callee :: opening.outer = path ∧
      Levels.frames rest = frames := by
  cases levels with
  | nil => cases h
  | cons level rest =>
    obtain ⟨opening, surplus⟩ := level
    cases surplus with
    | none => simp [Levels.frames] at h
    | some surplus =>
      simp only [Levels.frames, Option.map_some, List.cons.injEq, StackFrame.mk.injEq,
        Option.some.injEq] at h
      exact ⟨opening, surplus, rest, rfl, h.1.1, h.1.2, h.2⟩

/-- The levels of a function that `main` has called, if `main` is called in an empty stack and has
no variables. -/
def Levels.Ground (ground : Levels) (callee : String) : Prop :=
  ground.frames = [⟨3, some [callee]⟩, ⟨0, some ["main"]⟩]

section Ground

variable {L : Listing} {Δ : Context} {sites : Nat → Option Site} {memory : Memory}
  {inner ground : Levels} {callee : String}

variable (h : ground.Ground callee)
include h

theorem Levels.Ground.base_le : 3 ≤ Levels.base (inner ++ ground) := by
  obtain ⟨opening, surplus, rest, rfl, hbase, -, -⟩ := Levels.eq_of_frames h
  have hthree : Levels.base (⟨opening, some surplus⟩ :: rest) = 3 := hbase
  rw [← hthree]
  exact Levels.base_le_append

theorem Levels.Ground.path_ne_nil : Levels.path (inner ++ ground) ≠ [] := by
  obtain ⟨opening, surplus, rest, rfl, -, -, -⟩ := Levels.eq_of_frames h
  exact Levels.path_append_ne_nil (List.cons_ne_nil _ _)

theorem Levels.Ground.edge_eq : ground.edge = 6 := by
  obtain ⟨opening, surplus, rest, rfl, hbase, -, -⟩ := Levels.eq_of_frames h
  rw [Levels.edge, hbase]
  rfl

theorem Levels.Ground.edge_le (hstanding : Standing L Δ sites memory (inner ++ ground)) :
    6 ≤ Levels.edge (inner ++ ground) := by
  rw [← h.edge_eq]
  exact hstanding.edge_append

theorem Levels.Ground.frames_cases (hstanding : Standing L Δ sites memory (inner ++ ground))
    {frame : StackFrame} (hframe : frame ∈ Levels.frames (inner ++ ground)) :
    frame.owner = some ["main"] ∨ 3 ≤ frame.base := by
  rcases hstanding.frames_append hframe with hlow | hhigh
  · rw [h] at hlow
    rcases List.mem_cons.mp hlow with rfl | hlow
    · exact .inr (Nat.le_refl 3)
    · rw [List.mem_singleton] at hlow
      subst hlow
      exact .inl rfl
  · rw [h.edge_eq] at hhigh
    exact .inr (by omega)

theorem Levels.Ground.mem_frames : ⟨3, some [callee]⟩ ∈ Levels.frames (inner ++ ground) := by
  induction inner with
  | nil =>
    rw [List.nil_append, h]
    exact List.mem_cons_self
  | cons level inner ih => exact List.mem_cons_of_mem _ ih

end Ground

/-- The second machine is in the state of the first, with all frames three cells lower. -/
structure Shifted (L : Listing) (frames : List StackFrame) (m m' : Machine) : Prop where
  memory : Relocated L frames m'.top m.memory m'.memory
  top : m.top = m'.top + 3
  base : m.base = m'.base + 3
  next : m'.next = m.next - 3
  pc : m'.pc = m.pc

theorem Shifted.moved {L : Listing} {frames : List StackFrame} {m m' : Machine} {top : Nat}
    {memory memory' : Memory} (h : Shifted L frames m m')
    (hmoved : Relocated L frames top memory memory') :
    Shifted L frames (m.moved memory (top + 3)) (m'.moved memory' top) :=
  ⟨hmoved, rfl, h.base, h.next, congrArg (· + 1) h.pc⟩

section Step

variable {L : Listing} {Δ : Context} {sites : Nat → Option Site} {inner ground : Levels}
  {callee : String} {depth : Nat} {m m' m₁ : Machine} {line : Line}

theorem Sound.link_lt {levels : Levels} (h : Sound L Δ sites levels depth m) {frame : StackFrame}
    (hframe : frame ∈ levels.frames) {i : Nat} (hi : frame.Link i) : i < levels.edge :=
  h.standing.header_lt hframe hi.header

section

variable (h : Shifted L (Levels.frames (inner ++ ground)) m m')
include h

theorem Shifted.follow (hsound : Sound L Δ sites (inner ++ ground) depth m)
    (hground : ground.Ground callee) (hcells : m.memory.capacity < 2 ^ 63)
    (hmain : ∀ j, 0 < j → (Levels.path (inner ++ ground)).drop j ≠ ["main"]) {level : Nat}
    (hlevel : level ≤ (Levels.path (inner ++ ground)).length) :
    ∃ link, Machine.follow? m.memory level m.base = some link ∧
      Machine.follow? m'.memory level m'.base = some (link - 3) ∧ link < 2 ^ 64 ∧
      (level < (Levels.path (inner ++ ground)).length → 3 ≤ link) := by
  have hroom := hsound.room
  have hedge := hsound.edge
  have hbase := h.base
  have hbase' : m'.base = Levels.base (inner ++ ground) - 3 := by
    rw [← hsound.base]
    omega
  rw [hsound.base, hbase']
  apply hsound.standing.chained.relocated h.memory (by omega) _
    (fun frame hframe => hground.frames_cases hsound.standing hframe) hmain
    (fun _ => hground.base_le) hlevel
  intro frame hframe
  have := hsound.standing.base_lt hframe
  omega

theorem Shifted.variable (hsound : Sound L Δ sites (inner ++ ground) depth m)
    (hground : ground.Ground callee) (hcells : m.memory.capacity < 2 ^ 63)
    (hmain : ∀ j, 0 < j → (Levels.path (inner ++ ground)).drop j ≠ ["main"])
    {depth' level offset : Nat}
    (hfloor : (Levels.site (inner ++ ground) depth).floor L Δ ≤ depth') (hle : depth' ≤ depth)
    (hlevel : level < (Levels.path (inner ++ ground)).length) (hlow : headerSize ≤ offset)
    (hhigh : offset < L.frameSize Δ ((Levels.path (inner ++ ground)).drop level)) :
    ∃ base, Machine.follow? m.memory level m.base = some (base + 3) ∧
      Machine.follow? m'.memory level m'.base = some base ∧
      Cell.toAddress (Int64.ofInt offset) = offset ∧
      base + 3 + offset < Levels.address (inner ++ ground) depth' ∧ base + offset ≠ 2 ∧
      ∀ frame ∈ Levels.frames (inner ++ ground), ¬ frame.Link (base + offset + 3) := by
  obtain ⟨base, hbase, hoffset, hlt, frame, hframe, hvariable⟩ :=
    hsound.variable hcells hfloor hle hlevel hlow hhigh
  obtain ⟨link, hlink, hlink', -, hge⟩ :=
    h.follow hsound hground hcells hmain (Nat.le_of_lt hlevel)
  obtain rfl : base = link := Option.some.inj (hbase.symm.trans hlink)
  obtain ⟨base, rfl⟩ : ∃ base', base = base' + 3 := ⟨base - 3, by have := hge hlevel; omega⟩
  rw [Nat.add_right_comm] at hvariable
  refine ⟨base, hbase, hlink', hoffset, hlt, fun hbottom => ?_, fun other hother hother' => ?_⟩
  · apply hsound.standing.variable_not_header hframe hground.mem_frames hvariable
    unfold StackFrame.Header headerSize
    simp only
    omega
  · exact hsound.standing.variable_not_header hframe hother hvariable hother'.header

theorem Shifted.cell (hsound : Sound L Δ sites (inner ++ ground) depth m)
    (hground : ground.Ground callee) {i : Nat} (hedge : Levels.edge (inner ++ ground) ≤ i + 3)
    (hi : i < m'.top) : m'.memory.cell i = m.memory.cell (i + 3) := by
  have hlow := hground.edge_le hsound.standing
  apply h.memory.others i hi (by omega)
  intro frame hframe hlink
  have := hsound.link_lt hframe hlink
  omega

theorem Shifted.pushes (hsound : Sound L Δ sites (inner ++ ground) depth m)
    (hground : ground.Ground callee) {top : Nat} (hedge : Levels.edge (inner ++ ground) ≤ top + 3)
    (htop : top ≤ m'.top) (c : Cell) :
    Shifted L (Levels.frames (inner ++ ground)) (m.moved (m.memory.put (top + 3) c) (top + 3 + 1))
      (m'.moved (m'.memory.put top c) (top + 1)) := by
  have hlow := hground.edge_le hsound.standing
  have hput : Relocated L (Levels.frames (inner ++ ground)) (top + 1) (m.memory.put (top + 3) c)
      (m'.memory.put top c) := by
    apply h.memory.put (by omega)
    · intro frame hframe hlink
      have := hsound.link_lt hframe hlink
      omega
    · omega
  exact h.moved hput

theorem Shifted.pops (hsound : Sound L Δ sites (inner ++ ground) depth m)
    (hground : ground.Ground callee) {n : Nat}
    (hfloor : (Levels.site (inner ++ ground) depth).floor L Δ + n ≤ depth) :
    ∃ top, m.top = top + 3 + n ∧ m'.top = top + n ∧ Levels.edge (inner ++ ground) ≤ top + 3 ∧
      ∀ i, top ≤ i → i < top + n → m'.memory.cell i = m.memory.cell (i + 3) := by
  have hbelow := hsound.edge_le (Nat.le_sub_of_add_le hfloor)
  have hcells := hsound.top_eq (show n ≤ depth by omega)
  have hlow := hground.edge_le hsound.standing
  have htop := h.top
  refine ⟨m'.top - n, by omega, by omega, by omega, fun i hi hi' => ?_⟩
  exact h.cell hsound hground (by omega) (by omega)

theorem Shifted.operates (hsound : Sound L Δ sites (inner ++ ground) depth m)
    (hground : ground.Ground callee) {level : Nat} {operator : Operator}
    (hfloor : (Levels.site (inner ++ ground) depth).floor L Δ + operator.arity ≤ depth)
    (hfetch : L.image.code[m.pc]? = some ⟨.opr, level, operator.operand⟩)
    (hstep : m.step L.image.code = .ok m₁) : ∃ m₁', m'.step L.image.code = .ok m₁' ∧
      Shifted L (Levels.frames (inner ++ ground)) m₁ m₁' := by
  have hfetch' : L.image.code[m'.pc]? = some ⟨.opr, level, operator.operand⟩ := by rw [h.pc, hfetch]
  have hroom := hsound.room
  have hcapacity := h.memory.capacity
  have hoperator := operator.ofOperand?_operand
  obtain ⟨top, htop, htop', hedge, hsame⟩ := h.pops hsound hground hfloor
  cases hunary : operator.isUnary with
  | true =>
    have harity : operator.arity = 1 := by simp [Operator.arity, hunary]
    rw [harity] at htop htop' hsame
    rw [Machine.step_unary hfetch hoperator hunary htop (by omega)] at hstep
    cases hstep
    refine ⟨_, Machine.step_unary hfetch' hoperator hunary htop' (by omega), ?_⟩
    rw [hsame top (Nat.le_refl _) (by omega)]
    exact h.pushes hsound hground hedge (by omega) _
  | false =>
    have harity : operator.arity = 2 := by simp [Operator.arity, hunary]
    rw [harity] at htop htop' hsame
    rw [Machine.step_binary hfetch hoperator hunary htop (by omega)] at hstep
    cases hstep
    refine ⟨_, Machine.step_binary hfetch' hoperator hunary htop' (by omega), ?_⟩
    rw [hsame top (Nat.le_refl _) (by omega), hsame (top + 1) (by omega) (by omega),
      Nat.add_right_comm top 1 3]
    exact h.pushes hsound hground hedge (by omega) _

theorem Shifted.opens (hsound : Sound L Δ sites (inner ++ ground) depth m)
    (hground : ground.Ground callee) (hcells : m.memory.capacity < 2 ^ 63)
    (hmain : ∀ j, 0 < j → (Levels.path (inner ++ ground)).drop j ≠ ["main"]) {level : Nat}
    {c : Cell} (hlevel : level ≤ (Levels.path (inner ++ ground)).length)
    (hfetch : L.image.code[m.pc]? = some ⟨.cap, level, c⟩) (hstep : m.step L.image.code = .ok m₁) :
    ∃ m₁', m'.step L.image.code = .ok m₁' ∧
      Shifted L (⟨m.top, none⟩ :: Levels.frames (inner ++ ground)) m₁ m₁' := by
  have hedge := hsound.edge
  have hlow := hground.edge_le hsound.standing
  have hroom := hsound.room
  have hnext := hsound.standing.next_le
  have hbases := hsound.standing.base_le
  rw [← hsound.next] at hnext
  rw [← hsound.base] at hbases
  have htop := h.top
  have hbase := h.base
  have hcapacity := h.memory.capacity
  have hfetch' : L.image.code[m'.pc]? = some ⟨.cap, level, c⟩ := by rw [h.pc, hfetch]
  obtain ⟨link, hlink, hlink', hword, -⟩ := h.follow hsound hground hcells hmain hlevel
  -- without room for a header the first machine would have stopped
  have hfree : m.top + 3 ≤ m.memory.capacity := by
    refine Decidable.byContradiction fun hfull => ?_
    obtain ⟨memory, hfault⟩ := Machine.faults_cap hlink hfetch (by omega)
    rw [hstep] at hfault
    cases hfault
  rw [Machine.step_cap hlink hfetch hfree] at hstep
  cases hstep
  refine ⟨_, Machine.step_cap hlink' hfetch' (by omega), ?_, ?_, h.base, ?_, ?_⟩
  · have hbase' : m'.base = m.base - 3 := by omega
    rw [htop, hbase', h.next]
    apply h.memory.opens (by omega) _ hword (by omega) (by omega)
    intro frame hframe i hi
    have := hsound.link_lt hframe hi
    omega
  · exact congrArg (· + 3) htop
  · show m'.top = m.top - 3
    omega
  · exact congrArg (· + 1) h.pc

end

theorem Shifted.enters {opening : Opening}
    (h : Shifted L (Levels.frames (⟨opening, none⟩ :: inner ++ ground)) m m')
    (hsound : Sound L Δ sites (⟨opening, none⟩ :: inner ++ ground) depth m)
    (hground : ground.Ground callee) {level : Nat} {c : Cell} {owner : Option (List String)}
    (howner : owner ≠ none) (hfetch : L.image.code[m.pc]? = some ⟨.cal, level, c⟩)
    (hstep : m.step L.image.code = .ok m₁) : ∃ m₁', m'.step L.image.code = .ok m₁' ∧
      Shifted L (⟨Levels.address (inner ++ ground) opening.depth, owner⟩ ::
        Levels.frames (inner ++ ground)) m₁ m₁' := by
  have hstanding : Standing L Δ sites m.memory (inner ++ ground) := hsound.standing.1
  have hedge : Levels.address (inner ++ ground) opening.depth + 3 ≤ m.top := hsound.edge
  have hbelow : Levels.edge (inner ++ ground) ≤ Levels.address (inner ++ ground) opening.depth :=
    hsound.standing.edge_le_below
  have hnext : m.next = Levels.address (inner ++ ground) opening.depth := hsound.next
  have hlow := hground.edge_le hstanding
  have hroom := hsound.room
  have hcapacity := h.memory.capacity
  have hfetch' : L.image.code[m'.pc]? = some ⟨.cal, level, c⟩ := by rw [h.pc, hfetch]
  obtain ⟨base, hbase⟩ : ∃ base, Levels.address (inner ++ ground) opening.depth = base + 3 :=
    ⟨Levels.address (inner ++ ground) opening.depth - 3, by omega⟩
  rw [hbase] at hnext hedge hbelow ⊢
  have hnext' : m'.next = base := by rw [h.next, hnext, Nat.add_sub_cancel]
  have hmemory := h.memory
  simp only [List.cons_append, Levels.frames, hbase, Option.map_none] at hmemory
  -- what the frame keeps in the cell of the return address is an address of the stack
  have hparked : m'.memory.cell (base + 2)
      = .ofAddress ((m.memory.cell (base + 2 + 3)).toAddress - 3) := by
    apply hmemory.links _ List.mem_cons_self
    exact .inr (.inr ⟨Nat.add_right_comm base 2 3, rfl⟩)
  have hword : (m.memory.cell (base + 2 + 3)).toAddress - 3 < 2 ^ 64 :=
    Nat.lt_of_le_of_lt (Nat.sub_le _ _) (UInt64.toNat_lt _)
  rw [Machine.step_cal hfetch (by omega)] at hstep
  cases hstep
  refine ⟨_, Machine.step_cal hfetch' (by omega), ?_, h.top, ?_, ?_, rfl⟩
  · rw [hnext, hnext', h.pc, Nat.add_right_comm base 3 2]
    apply hmemory.enters (by omega) _ howner
    intro frame hframe i hi
    have := hstanding.header_lt hframe hi.header
    omega
  · show m.next = m'.next + 3
    rw [hnext, hnext']
  · show (m'.memory.cell (m'.next + 2)).toAddress = (m.memory.cell (m.next + 2)).toAddress - 3
    rw [hnext, hnext', hparked, Cell.toAddress_ofAddress hword, Nat.add_right_comm base 3 2]

theorem Shifted.leaves {opening : Opening} {surplus : Nat}
    (h : Shifted L (Levels.frames (⟨opening, some surplus⟩ :: inner ++ ground)) m m')
    (hsound : Sound L Δ sites (⟨opening, some surplus⟩ :: inner ++ ground) depth m)
    (hground : ground.Ground callee) (hcells : m.memory.capacity < 2 ^ 63) {size : Nat} {c : Cell}
    (hsize : c.toAddress = size) (hvalue : headerSize + size ≤ depth)
    (hfetch : L.image.code[m.pc]? = some ⟨.ret, 0, c⟩) (hstep : m.step L.image.code = .ok m₁) :
    ∃ m₁', m'.step L.image.code = .ok m₁' ∧
      Shifted L (Levels.frames (inner ++ ground)) m₁ m₁' := by
  have hstanding : Standing L Δ sites m.memory (inner ++ ground) := hsound.standing.1
  have hbelow : Levels.edge (inner ++ ground) ≤ Levels.address (inner ++ ground) opening.depth :=
    hsound.standing.edge_le_below
  have hbase : m.base = Levels.address (inner ++ ground) opening.depth := hsound.base
  have htop : m.top = m.base + depth + surplus := by
    rw [hsound.top, hsound.base]
    rfl
  have hlow := hground.edge_le hstanding
  have hroom := hsound.room
  have hcapacity := h.memory.capacity
  have hthree : headerSize = 3 := rfl
  have htop' := h.top
  have hbase' := h.base
  have hfetch' : L.image.code[m'.pc]? = some ⟨.ret, 0, c⟩ := by rw [h.pc, hfetch]
  have hmemory := h.memory
  simp only [List.cons_append, Levels.frames, ← hbase, Option.map_some] at hmemory
  have hword : Levels.base (inner ++ ground) < 2 ^ 64 := by
    have := hstanding.base_le
    omega
  have hcaller : m.memory.cell (m.base + 1) = .ofAddress (Levels.base (inner ++ ground)) := by
    rw [hbase]
    exact hsound.standing.2.caller
  -- the base of the caller is an address of the stack; the return address and the result are not
  have hcaller' : m'.memory.cell (m'.base + 1)
      = .ofAddress (Levels.base (inner ++ ground) - 3) := by
    have hlink := hmemory.links _ List.mem_cons_self (m'.base + 1)
      (.inr (.inl (by rw [hbase', Nat.add_right_comm])))
    rw [Nat.add_right_comm, ← hbase', hcaller, Cell.toAddress_ofAddress hword] at hlink
    exact hlink
  have hreturn : m'.memory.cell (m'.base + 2) = m.memory.cell (m.base + 2) := by
    rw [hbase', Nat.add_right_comm]
    apply hmemory.others (m'.base + 2) (by omega) (by omega)
    intro frame hframe hlink
    rcases List.mem_cons.mp hframe with rfl | hframe
    · unfold StackFrame.Link at hlink
      simp only [reduceCtorEq, and_false, or_false] at hlink
      omega
    · have := hstanding.header_lt hframe hlink.header
      omega
  have hresult : m'.memory.read (m'.top - size) size = m.memory.read (m.top - size) size := by
    rw [show m.top - size = m'.top - size + 3 by omega]
    apply hmemory.read (by omega) _ (by omega)
    intro frame hframe i hi
    rcases List.mem_cons.mp hframe with rfl | hframe
    · have hlt : i < m.base + 3 := hi.header.2
      omega
    · have := hstanding.header_lt hframe hi.header
      omega
  rw [Machine.step_ret hfetch (by omega) (by omega) (by omega), hsize] at hstep
  cases hstep
  have hstep' := Machine.step_ret hfetch' (by omega) (by omega) (by omega)
  rw [hsize, hcaller', hreturn, hresult] at hstep'
  refine ⟨_, hstep', ?_, ?_, ?_, h.next, rfl⟩
  · have hrest := (hmemory.below hbase' (by omega)).write (by omega) (fun frame hframe i hi => by
      have := hstanding.header_lt hframe hi.header
      omega) (m.memory.read (m.top - size) size)
    rw [Memory.length_read, ← hbase'] at hrest
    exact hrest
  · show m.base + size = m'.base + size + 3
    omega
  · have hthree := @Levels.Ground.base_le inner ground callee hground
    show (m.memory.cell (m.base + 1)).toAddress = Cell.toAddress _ + 3
    rw [hcaller, Cell.toAddress_ofAddress hword, Cell.toAddress_ofAddress (by omega)]
    omega

/-- A step of the first machine is one of the second. -/
theorem Shifted.step (h : Shifted L (Levels.frames (inner ++ ground)) m m')
    (hsound : Sound L Δ sites (inner ++ ground) depth m) (hground : ground.Ground callee)
    (hmap : StackMap L Δ sites) (hwords : L.WordSized Δ) (hcells : m.memory.capacity < 2 ^ 63)
    (hline : L.lines[m.pc]? = some line) (hmain : ∀ j, 0 < j → line.owner.drop j ≠ ["main"])
    (hclosing : line.closing = false) (hinner : line.instruction.op = .ret → inner ≠ [])
    (hstep : m.step L.image.code = .ok m₁) : ∃ m₁', m'.step L.image.code = .ok m₁' ∧
      Shifted L (L.track m line.instruction (Levels.frames (inner ++ ground))) m₁ m₁' := by
  have hplaced := hmap.placed hline hsound.site
  have hfetch := Listing.fetch hline
  have hfetch' : L.image.code[m'.pc]? = some line.instruction := by rw [h.pc, hfetch]
  rw [hplaced.owner] at hmain
  have hmain : ∀ j, 0 < j → (Levels.path (inner ++ ground)).drop j ≠ ["main"] := hmain
  have hedge := hsound.edge
  have hlow := hground.edge_le hsound.standing
  have hroom := hsound.room
  have htop := h.top
  have hcapacity := h.memory.capacity
  have haddress := hsound.top
  -- the first machine had room for the step, and the second has three cells more
  have hlive : ¬ m.Faults L.image.code := by
    intro ⟨memory, hfault⟩
    rw [hstep] at hfault
    cases hfault
  cases hplaced with
  | lit _ _ =>
    have hfree : m.top < m.memory.capacity :=
      Decidable.byContradiction fun hfull => hlive (Machine.faults_lit hfetch (by omega))
    rw [Machine.step_lit hfetch hfree] at hstep
    cases hstep
    refine ⟨_, Machine.step_lit hfetch' (by omega), ?_⟩
    rw [htop]
    exact h.pushes hsound hground (by omega) (Nat.le_refl _) _
  | opr hfloor _ => exact h.operates hsound hground hfloor hfetch hstep
  | lod hfloor hlevel hbeyond hhigh _ =>
    obtain ⟨base, hfollow, hfollow', hoffset, hlt, hbottom, hlink⟩ :=
      h.variable hsound hground hcells hmain hfloor (Nat.le_refl _) hlevel hbeyond hhigh
    simp only [Levels.site] at hlt
    have hfree : m.top < m.memory.capacity := Decidable.byContradiction fun hfull =>
      hlive (Machine.faults_lod hfollow hfetch (by omega) (by omega))
    rw [Machine.step_lod hfollow hfetch (by omega) hfree, hoffset] at hstep
    cases hstep
    refine ⟨_, Machine.step_lod hfollow' hfetch' (by omega) (by omega), ?_⟩
    rw [hoffset, h.memory.others _ (by omega) hbottom hlink, Nat.add_right_comm base _ 3, htop]
    exact h.pushes hsound hground (by omega) (Nat.le_refl _) _
  | sto hfloor hlevel hbeyond hhigh _ =>
    obtain ⟨top, hpop, hpop', -, hsame⟩ := h.pops hsound hground hfloor
    simp only [Levels.site] at hfloor
    obtain ⟨base, hfollow, hfollow', hoffset, hlt, hbottom, hlink⟩ :=
      h.variable hsound hground hcells hmain (Nat.le_sub_of_add_le hfloor) (Nat.sub_le _ _) hlevel
        hbeyond hhigh
    have hcells := hsound.top_eq (show 1 ≤ depth by omega)
    rw [Machine.step_sto hfollow hfetch hpop (by omega) (by omega), hoffset] at hstep
    cases hstep
    refine ⟨_, Machine.step_sto hfollow' hfetch' hpop' (by omega) (by omega), ?_⟩
    rw [hoffset, hsame top (Nat.le_refl _) (Nat.lt_succ_self _), Nat.add_right_comm base 3]
    exact h.moved (h.memory.put hbottom hlink (by omega))
  | @reserve _ level n _ _ _ hsmall _ =>
    have hn : (Int64.ofInt n).toInt = n := Cell.toInt_ofInt (by omega) (by omega)
    have hfree : m.top + n ≤ m.memory.capacity :=
      Decidable.byContradiction fun hfull => hlive (Machine.faults_reserve hfetch hn (by omega))
    rw [Machine.step_reserve hfetch hn hfree] at hstep
    cases hstep
    refine ⟨_, Machine.step_reserve hfetch' hn (by omega), ?_⟩
    have hwrite := h.memory.write (by omega) (fun frame hframe i hi => by
      have := hsound.link_lt hframe hi
      omega) (List.replicate n 0)
    rw [List.length_replicate] at hwrite
    rw [htop, Nat.add_right_comm]
    exact h.moved hwrite
  | @discard _ level n _ _ hfloor _ =>
    obtain ⟨top, hpop, hpop', -, -⟩ := h.pops hsound hground hfloor
    have hn : (Int64.ofInt (-(n : Int))).toInt = -n := Cell.toInt_ofInt (by omega) (by omega)
    rw [Machine.step_discard hfetch hn hpop hroom] at hstep
    cases hstep
    exact ⟨_, Machine.step_discard hfetch' hn hpop' (by omega), h.moved (h.memory.lower (by omega))⟩
  | cap _ hlevel _ _ _ _ => exact h.opens hsound hground hcells hmain hlevel hfetch hstep
  | @cal _ _ opening opened entry types variadic ret hopened _ _ _ _ _ hsite _ =>
    obtain ⟨tail, htail, -⟩ := Levels.eq_of_opened_cons hopened
    cases inner with
    | nil =>
      -- both frames of the ground have been entered
      obtain ⟨_, _, _, rfl, -⟩ := Levels.eq_of_frames hground
      cases htail
    | cons level inner =>
      cases htail
      have hfirst : L.lines[entry]? ≠ none := fun hnone => by cases hmap.behind hnone hsite
      have hlt : entry < L.lines.length := by simpa using hfirst
      have hlines := hwords.lines
      apply h.enters hsound hground _ hfetch hstep
      rw [Cell.toAddress_ofInt (by omega)]
      simpa using hfirst
  | @ret _ _ name outer types variadic ret hpath hopened hf _ hvalue =>
    obtain ⟨opening, surplus, tail, htail, rfl, rfl⟩ := Levels.eq_of_opened_nil hopened hpath
    cases inner with
    | nil => exact absurd rfl (hinner rfl)
    | cons level inner =>
      cases htail
      obtain ⟨-, _, ⟨_, _, _, _, -, hentry, -⟩, -⟩ := hsound.standing.2.entered rfl
      have hframe := @Listing.headerSize_le_frameSize L Δ
        (Levels.site (⟨opening, some surplus⟩ :: inner ++ ground) depth).path
        (by rw [hpath]; exact List.cons_ne_nil _ _)
      have hsize := hvalue hclosing
      exact h.leaves hsound hground hcells (Cell.toAddress_ofInt (hwords.results hentry hf))
        (Nat.le_trans (Nat.add_le_add_right hframe _) hsize) hfetch hstep
  | @jmp _ level target _ _ _ =>
    rw [Machine.step_jmp hfetch] at hstep
    cases hstep
    exact ⟨_, Machine.step_jmp hfetch', h.memory, h.top, h.base, h.next, rfl⟩
  | jpc hfloor _ _ _ =>
    obtain ⟨top, hpop, hpop', -, hsame⟩ := h.pops hsound hground hfloor
    rw [Machine.step_jpc hfetch hpop (by omega)] at hstep
    cases hstep
    refine ⟨_, Machine.step_jpc hfetch' hpop' (by omega), h.memory.lower ?_, rfl,
      h.base, h.next, ?_⟩
    · simp only
      omega
    · simp only [hsame top (Nat.le_refl _) (Nat.lt_succ_self _), h.pc]

end Step

end PCode.Codegen
