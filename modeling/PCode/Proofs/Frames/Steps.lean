import PCode.Proofs.Codegen.Cost
import PCode.Proofs.Codegen.Sites
import PCode.Proofs.Frames.Levels

namespace PCode.Codegen

/-- The frames on the stack behind an instruction: a `cap` opens one, a `cal` enters the latest and
a `ret` leaves it. -/
def Listing.track (L : Listing) (m : Machine) (i : Instruction) (frames : List StackFrame) :
    List StackFrame :=
  match i.op, frames with
  | .cap, frames => ⟨m.top, none⟩ :: frames
  | .cal, frame :: frames => ⟨frame.base, (L.lines[i.operand.toAddress]?).map Line.owner⟩ :: frames
  | .ret, _ :: frames => frames
  | _, frames => frames

/-- The instruction asks for more cells than the memory has. -/
def Overflows (m : Machine) (i : Instruction) : Prop :=
  match i.op with
  | .lit | .lod => m.memory.capacity < m.top + 1
  | .cap => m.memory.capacity < m.top + headerSize
  | .ini => 0 < i.operand.toInt ∧ (m.memory.capacity : Int) < m.top + i.operand.toInt
  | _ => False

/-- What an instruction finds: an operator and cells for it, a cell to pop, the cell that it
addresses below the top, and above the variables of its frame as many cells as it drops or
returns. -/
def Listing.Supplies (L : Listing) (Δ : Context) (m : Machine) (line : Line) : Prop :=
  let i := line.instruction
  match i.op with
  | .opr => ∃ operator, Operator.ofOperand? i.operand = some operator ∧ operator.arity ≤ m.top
  | .lod => ∃ base, Machine.follow? m.memory i.level m.base = some base ∧
      base + i.operand.toAddress < m.top
  | .sto => 0 < m.top ∧ ∃ base, Machine.follow? m.memory i.level m.base = some base ∧
      base + i.operand.toAddress < m.top - 1
  | .ini => i.operand.toInt < 0 →
      (m.base : Int) + L.frameSize Δ line.owner ≤ m.top + i.operand.toInt
  | .ret => line.closing = false →
      m.base + L.frameSize Δ line.owner + i.operand.toAddress ≤ m.top
  | .jpc => 0 < m.top
  | _ => True

/-- Addresses of the code and the sizes of the results of its functions fit into words. -/
structure Listing.WordSized (L : Listing) (Δ : Context) : Prop where
  lines : L.lines.length < 2 ^ 63
  results : ∀ {name entry types variadic ret}, L.functions.get? name = some entry →
    Δ.function? name = some (.function types variadic ret) → ret.size < 2 ^ 64

theorem Listing.Fits.wordSized {L : Listing} {Δ : Context} (h : L.Fits Δ) : L.WordSized Δ :=
  ⟨h.lines, fun _ hf => Nat.lt_trans (h.result hf) (by decide)⟩

/-- The machine is in front of a line, with these levels on its stack. -/
structure Sound (L : Listing) (Δ : Context) (sites : Nat → Option Site) (levels : Levels)
    (depth : Nat) (m : Machine) : Prop where
  site : sites m.pc = some (levels.site depth)
  standing : Standing L Δ sites m.memory levels
  base : m.base = levels.base
  next : m.next = levels.next
  top : m.top = levels.address depth
  edge : levels.edge ≤ m.top
  room : m.top ≤ m.memory.capacity

/-- What an instruction does to the levels. -/
inductive Levels.Moves (L : Listing) (m : Machine) (i : Instruction) (m' : Machine) :
    Levels → Levels → Prop where
  | stays {levels} : i.op ≠ .cap → i.op ≠ .cal → i.op ≠ .ret → Moves L m i m' levels levels
  | opens {levels opening} : i.op = .cap → address levels opening.depth = m.top →
      L.Matches m.pc opening.call → (∀ j < m.top, m'.memory.cell j = m.memory.cell j) →
      Moves L m i m' levels (⟨opening, none⟩ :: levels)
  | enters {levels opening surplus} : i.op = .cal →
      (L.lines[i.operand.toAddress]?).map Line.owner = some (opening.callee :: opening.outer) →
      Moves L m i m' (⟨opening, none⟩ :: levels) (⟨opening, some surplus⟩ :: levels)
  | leaves {levels opening surplus} : i.op = .ret → m'.pc = opening.call + 1 →
      Moves L m i m' (⟨opening, some surplus⟩ :: levels) levels

theorem Levels.Moves.track {L : Listing} {m m' : Machine} {i : Instruction}
    {levels levels' : Levels}
    (h : Levels.Moves L m i m' levels levels') : levels'.frames = L.track m i levels.frames := by
  unfold Listing.track
  cases h with
  | stays hcap hcal hret =>
    split
    · exact absurd ‹i.op = .cap› hcap
    · exact absurd ‹i.op = .cal› hcal
    · exact absurd ‹i.op = .ret› hret
    · rfl
  | opens hop haddress _ _ =>
    rw [hop]
    simp only [frames, haddress, Option.map_none]
  | enters hop howner =>
    rw [hop]
    simp only [frames, Option.map_none, Option.map_some, howner]
  | leaves hop _ =>
    rw [hop]
    simp only [frames]

/-- What one line comes to. -/
inductive Reacts (L : Listing) (Δ : Context) (sites : Nat → Option Site) (levels : Levels)
    (m : Machine) (line : Line) : Prop where
  | step {m'} (levels' : Levels) (depth : Nat) :
      m.step L.image.code = .ok m' → Sound L Δ sites levels' depth m' →
      Levels.Moves L m line.instruction m' levels levels' →
      (∀ i, m'.memory.cell i ≠ m.memory.cell i →
        (∃ frame ∈ levels.frames, frame.Variable L Δ i) ∨ levels.latest ≤ i) →
      Reacts L Δ sites levels m line
  | overflow : m.Faults L.image.code → Overflows m line.instruction → Reacts L Δ sites levels m line
  | closing : m.Faults L.image.code → line.instruction.op = .ret → line.closing = true →
      Reacts L Δ sites levels m line

section Steps

variable {L : Listing} {Δ : Context} {sites : Nat → Option Site} {levels : Levels} {depth : Nat}
  {m : Machine} {line : Line}

theorem Levels.latest_le_edge (levels : Levels) : levels.latest ≤ levels.edge := by
  cases levels with
  | nil => exact Nat.le_refl _
  | cons level levels => exact Nat.le_add_right _ _

theorem Levels.address_add (levels : Levels) (depth n : Nat) :
    levels.address (depth + n) = levels.address depth + n := by
  simp only [address]
  omega

theorem Placed.owner {pc : Nat} {s : Site} (h : Placed L Δ sites pc line s) :
    line.owner = s.path := by
  cases h <;> rfl

section

variable (h : Sound L Δ sites levels depth m)
include h

theorem Sound.stays {m' : Machine} {depth' : Nat}
    (hop : line.instruction.op ≠ .cap ∧ line.instruction.op ≠ .cal ∧ line.instruction.op ≠ .ret)
    (hstep : m.step L.image.code = .ok m') (hsite : sites m'.pc = some (levels.site depth'))
    (hbase : m'.base = m.base) (hnext : m'.next = m.next) (htop : m'.top = levels.address depth')
    (hedge : levels.edge ≤ m'.top) (hroom : m'.top ≤ m'.memory.capacity)
    (hcells : ∀ i, m'.memory.cell i ≠ m.memory.cell i → (∃ frame ∈ levels.frames, frame.Variable L
      Δ i) ∨ levels.edge ≤ i) : Reacts L Δ sites levels m line := by
  refine .step levels depth' hstep ⟨hsite, ?_, hbase.trans h.base, hnext.trans h.next, htop,
    hedge, hroom⟩ (.stays hop.1 hop.2.1 hop.2.2) fun i hi => ?_
  · refine h.standing.congr fun frame hframe i hi => ?_
    refine Decidable.byContradiction fun hne => ?_
    rcases hcells i hne with ⟨other, hother, hvariable⟩ | hle
    · exact h.standing.variable_not_header hother hframe hvariable hi
    · have := h.standing.header_lt hframe hi
      omega
  · exact (hcells i hi).imp_right (Nat.le_trans levels.latest_le_edge)

theorem Sound.pushes {c : Cell}
    (hop : line.instruction.op ≠ .cap ∧ line.instruction.op ≠ .cal ∧ line.instruction.op ≠ .ret)
    {top depth' : Nat}
    (hstep : m.step L.image.code = .ok (m.moved (m.memory.put top c) (top + 1)))
    (hsite : sites (m.pc + 1) = some (levels.site (depth' + 1)))
    (htop : top = levels.address depth') (hedge : levels.edge ≤ top)
    (hroom : top < m.memory.capacity) : Reacts L Δ sites levels m line := by
  refine h.stays hop hstep hsite rfl rfl ?_ ?_ ?_ fun i hi => .inr ?_
  · rw [Machine.moved_top, htop, Levels.address_add]
  · exact Nat.le_succ_of_le hedge
  · simpa using Nat.succ_le_of_lt hroom
  · refine Decidable.byContradiction fun hlt => ?_
    exact hi (Memory.cell_put_of_ne (by omega))

theorem Sound.edge_le {depth' : Nat} (hfloor : (levels.site depth).floor L Δ ≤ depth') :
    levels.edge ≤ levels.address depth' :=
  h.standing.edge_le hfloor

theorem Sound.variable (hcells : m.memory.capacity < 2 ^ 63) {depth' level offset : Nat}
    (hfloor : (levels.site depth).floor L Δ ≤ depth') (hle : depth' ≤ depth)
    (hlevel : level < levels.path.length) (hlow : headerSize ≤ offset)
    (hhigh : offset < L.frameSize Δ (levels.path.drop level)) :
    ∃ base, Machine.follow? m.memory level m.base = some base ∧
      Cell.toAddress (Int64.ofInt offset) = offset ∧ base + offset < levels.address depth' ∧
      ∃ frame ∈ levels.frames, frame.Variable L Δ (base + offset) := by
  have hroom := h.room
  have hbases : ∀ frame ∈ levels.frames, frame.base < levels.edge :=
    fun frame hframe => h.standing.base_lt hframe
  obtain ⟨base, hfollow, hchained, -⟩ := h.standing.chained.follow hbases
    (Nat.le_trans h.edge h.room) (by omega) (Nat.le_of_lt hlevel)
  have hmem := hchained.mem (by
    intro hnil
    have := congrArg List.length hnil
    simp only [List.length_drop, List.length_nil] at this
    omega)
  have hvariable : StackFrame.Variable L Δ ⟨base, some (levels.path.drop level)⟩ (base + offset) :=
    ⟨_, rfl, Nat.add_le_add_left hlow _, Nat.add_lt_add_left hhigh _⟩
  have hlt := @Standing.variable_lt _ _ _ _ _ depth' _ h.standing hfloor _ hmem hvariable
  have htop : levels.address depth' ≤ m.top := by
    rw [h.top]
    simp only [Levels.address]
    omega
  refine ⟨base, by rw [h.base]; exact hfollow, ?_, hlt, _, hmem, hvariable⟩
  exact Cell.toAddress_ofInt (by omega)

theorem Sound.opens (hcells : m.memory.capacity < 2 ^ 63) {level : Nat} {c : Cell}
    {opening : Opening} (hfetch : L.image.code[m.pc]? = some ⟨.cap, level, c⟩)
    (hop : line.instruction = ⟨.cap, level, c⟩) (hfloor : (levels.site depth).floor L Δ ≤ depth)
    (hlevel : level ≤ levels.path.length) (hdepth : opening.depth = depth)
    (houter : opening.outer = levels.path.drop level) (hmatches : L.Matches m.pc opening.call)
    (hsite : sites (m.pc + 1) = some ⟨levels.path, depth + headerSize, opening :: levels.opened⟩) :
    Reacts L Δ sites levels m line := by
  subst hdepth
  have htop := h.top
  have hedge := h.edge
  obtain ⟨link, hfollow, hchained, -⟩ := h.standing.chained.follow
    (fun frame hframe => h.standing.base_lt hframe) (Nat.le_trans h.edge h.room) (by omega) hlevel
  rw [← h.base] at hfollow
  rw [← houter] at hchained
  by_cases hroom : m.top + 3 ≤ m.memory.capacity
  · have hstep := Machine.step_cap hfollow hfetch hroom
    have hbelow : ∀ i < m.top, (((m.memory.put m.top (.ofAddress link)).put (m.top + 1)
        (.ofAddress m.base)).put (m.top + 2) (.ofAddress m.next)).cell i = m.memory.cell i := by
      intro i hi
      rw [Memory.cell_put_of_ne (by omega), Memory.cell_put_of_ne (by omega),
        Memory.cell_put_of_ne (by omega)]
    have hstands : Level.Stands L Δ sites (((m.memory.put m.top (.ofAddress link)).put (m.top + 1)
        (.ofAddress m.base)).put (m.top + 2) (.ofAddress m.next)) levels ⟨opening, none⟩ := by
      refine ⟨hfloor, ⟨link, ?_, hchained.congr fun frame hframe => hbelow _ ?_⟩, ?_, fun _ => ?_,
        fun hentered => by cases hentered⟩
      · rw [← htop, Memory.cell_put_of_ne (by omega), Memory.cell_put_of_ne (by omega),
          Memory.cell_put_self]
      · exact Nat.lt_of_lt_of_le (h.standing.base_lt hframe) hedge
      · rw [← htop, Memory.cell_put_of_ne (by omega), Memory.cell_put_self, h.base]
      · rw [← htop, Memory.cell_put_self, h.next]
    have hstanding := h.standing.congr_below fun i hi => hbelow i (Nat.lt_of_lt_of_le hi hedge)
    refine .step (⟨opening, none⟩ :: levels) (opening.depth + headerSize) hstep
      ⟨hsite, ⟨hstanding, hstands⟩, h.base, htop, ?_, ?_, ?_⟩
      (.opens (by rw [hop]) htop.symm hmatches hbelow) fun i hi => .inr ?_
    · show m.top + 3 = _
      rw [htop, Levels.address_add]
      rfl
    · show Levels.address levels opening.depth + headerSize ≤ m.top + 3
      rw [htop]
      exact Nat.le_refl _
    · show m.top + 3 ≤ _
      simpa using hroom
    · have := levels.latest_le_edge
      exact Decidable.byContradiction fun hlt => hi (hbelow i (by omega))
  · refine .overflow (Machine.faults_cap hfollow hfetch (by omega)) ?_
    rw [hop]
    show m.memory.capacity < m.top + 3
    omega

end

theorem Sound.enters {tail : Levels} {opening : Opening}
    (h : Sound L Δ sites (⟨opening, none⟩ :: tail) depth m) (hmap : StackMap L Δ sites)
    (hlines : L.lines.length < 2 ^ 63) (hcells : m.memory.capacity < 2 ^ 63) {level entry : Nat}
    {types : List Ty} {variadic : Bool} {ret : Ty}
    (hfetch : L.image.code[m.pc]? = some ⟨.cal, level, Int64.ofInt entry⟩)
    (hop : line.instruction = ⟨.cal, level, Int64.ofInt entry⟩) (hcall : opening.call = m.pc)
    (hentry : L.functions.get? opening.callee = some entry)
    (hf : Δ.function? opening.callee = some (.function types variadic ret))
    (hargs : opening.depth + headerSize + cellsOf types ≤ depth)
    (hsite : sites entry = some (.entry opening.callee opening.outer types))
    (hbehind : sites (m.pc + 1) = some (tail.site (opening.depth + ret.size))) :
    Reacts L Δ sites (⟨opening, none⟩ :: tail) m line := by
  obtain ⟨hstanding, hstands⟩ := h.standing
  have hedge : tail.address opening.depth + 3 ≤ m.top := h.edge
  have hnext : m.next = tail.address opening.depth := h.next
  have htail := h.standing.edge_le_below
  have hparked := hstands.parked rfl
  have hroom := h.room
  have htop := h.top
  simp only at htail hparked
  -- the entry is the address of a line, and this line belongs to the callee
  obtain ⟨first, hfirst⟩ : ∃ first, L.lines[entry]? = some first := by
    cases hfirst : L.lines[entry]? with
    | some first => exact ⟨first, rfl⟩
    | none => cases hmap.behind hfirst hsite
  have howner := (hmap.placed hfirst hsite).owner
  have hlt := (List.getElem?_eq_some_iff.mp hfirst).1
  have haddress : Cell.toAddress (Int64.ofInt entry) = entry := Cell.toAddress_ofInt (by omega)
  have hsaved : (m.memory.cell (m.next + 2)).toAddress = tail.next := by
    have := hstanding.next_le
    rw [hnext, hparked, Cell.toAddress_ofAddress (by omega)]
  have hstep := Machine.step_cal hfetch (by omega)
  rw [haddress, hsaved, hnext] at hstep
  have hbelow : ∀ i ≠ tail.address opening.depth + 2, (m.memory.put (tail.address opening.depth + 2)
      (.ofAddress (m.pc + 1))).cell i = m.memory.cell i := fun i hi => Memory.cell_put_of_ne hi
  have hstands' : Level.Stands L Δ sites (m.memory.put (tail.address opening.depth + 2)
      (.ofAddress (m.pc + 1))) tail
      ⟨opening, some (depth - (opening.depth + headerSize + cellsOf types))⟩ := by
    obtain ⟨link, hlink, hchained⟩ := hstands.link
    refine ⟨hstands.floor, ⟨link, ?_, hchained.congr fun frame hframe => hbelow _ ?_⟩, ?_,
      (fun hopen => nomatch hopen),
      fun _ => ⟨?_, ret, ⟨level, types, variadic, entry, ?_, hentry, hf⟩, ?_⟩⟩
    · rw [hbelow _ (by simp only; omega), hlink]
    · have := hstanding.base_lt hframe
      omega
    · rw [hbelow _ (by simp only; omega), hstands.caller]
    · rw [Memory.cell_put_self, hcall]
    · rw [hcall]
      exact hfetch
    · rw [hcall]
      exact hbehind
  have hstanding' := hstanding.congr_below fun i hi => hbelow i (by omega)
  refine .step (⟨opening, some (depth - (opening.depth + headerSize + cellsOf types))⟩ :: tail)
    (headerSize + cellsOf types) hstep ⟨hsite, ⟨hstanding', hstands'⟩, rfl, rfl, ?_, hedge, ?_⟩
    (.enters (by rw [hop]) ?_) fun i hi => .inr ?_
  · show m.top = _
    rw [htop]
    simp only [Levels.address, Levels.base, Levels.surplus]
    omega
  · show m.top ≤ _
    simpa using hroom
  · rw [hop, haddress, hfirst, Option.map_some, howner]
    rfl
  · refine Decidable.byContradiction fun hlt => hi (hbelow i ?_)
    have hlt : i < tail.address opening.depth := Nat.lt_of_not_le hlt
    omega

theorem Sound.leaves {tail : Levels} {opening : Opening} {surplus : Nat}
    (h : Sound L Δ sites (⟨opening, some surplus⟩ :: tail) depth m) (hwords : L.WordSized Δ)
    (hcells : m.memory.capacity < 2 ^ 63) {types : List Ty} {variadic closing : Bool} {ret : Ty}
    (hfetch : L.image.code[m.pc]? = some ⟨.ret, 0, Int64.ofInt ret.size⟩)
    (hop : line.instruction = ⟨.ret, 0, Int64.ofInt ret.size⟩) (hclosing : line.closing = closing)
    (hf : Δ.function? opening.callee = some (.function types variadic ret))
    (hvalue : closing = false →
      L.frameSize Δ (opening.callee :: opening.outer) + ret.size ≤ depth) :
    Reacts L Δ sites (⟨opening, some surplus⟩ :: tail) m line := by
  obtain ⟨hstanding, hstands⟩ := h.standing
  have hedge : tail.address opening.depth + 3 ≤ m.top := h.edge
  have hbase : m.base = tail.address opening.depth := h.base
  have htail := h.standing.edge_le_below
  have hroom := h.room
  have htop := h.top
  have hlines := hwords.lines
  obtain ⟨hreturn, ret', ⟨level, types', variadic', entry, hcode, hentry, hf'⟩, hsite⟩ :=
    hstands.entered rfl
  have hsize : Cell.toAddress (Int64.ofInt ret.size) = ret.size :=
    Cell.toAddress_ofInt (hwords.results hentry hf)
  rw [hf] at hf'
  cases hf'
  simp only at htail hcode hreturn hsite
  have hcallLt : opening.call < L.lines.length := by
    have := (Array.getElem?_eq_some_iff.mp hcode).1
    rwa [Listing.size_code] at this
  by_cases hfinds : ret.size ≤ m.top ∧ m.base + ret.size ≤ m.memory.capacity
  · have hstep := Machine.step_ret hfetch (by omega) (by rw [hsize]; exact hfinds.1)
      (by rw [hsize]; exact hfinds.2)
    have hcaller := hstanding.base_le
    rw [hsize, hbase, hstands.caller, hreturn, Cell.toAddress_ofAddress (by omega),
      Cell.toAddress_ofAddress (by omega)] at hstep
    have hbelow : ∀ i < tail.address opening.depth, (m.memory.write (tail.address opening.depth)
        (m.memory.read (m.top - ret.size) ret.size)).cell i = m.memory.cell i :=
      fun i hi => Memory.cell_write_of_lt hi
    refine .step tail (opening.depth + ret.size) hstep
      ⟨hsite, hstanding.congr_below fun i hi => hbelow i (by omega), rfl, h.next, ?_, ?_, ?_⟩
      (.leaves (by rw [hop]) rfl) fun i hi => .inr ?_
    · rw [Levels.address_add]
    · exact Nat.le_trans htail (Nat.le_add_right _ _)
    · show tail.address opening.depth + ret.size ≤ _
      rw [Memory.capacity_write, ← hbase]
      exact hfinds.2
    · exact Decidable.byContradiction fun hlt => hi (hbelow i (Nat.lt_of_not_le hlt))
  · -- only a block may fall through to a return without a value
    cases closing with
    | true =>
      exact .closing (Machine.faults_ret hfetch (by omega) (by rw [hsize]; exact hfinds))
        (by rw [hop]) hclosing
    | false =>
      have := hvalue rfl
      have haddress : m.top = m.base + depth + surplus := by
        rw [htop, hbase]
        rfl
      omega

theorem Sound.top_eq {n : Nat} (h : Sound L Δ sites levels depth m) (hle : n ≤ depth) :
    m.top = levels.address (depth - n) + n := by
  rw [h.top, ← Levels.address_add, Nat.sub_add_cancel hle]

theorem Levels.eq_of_opened_nil {name : String} {outer : List String} (hopened : levels.opened = [])
    (hpath : levels.path = name :: outer) : ∃ opening surplus tail,
      levels = ⟨opening, some surplus⟩ :: tail ∧ opening.callee = name ∧ opening.outer = outer := by
  cases levels with
  | nil => cases hpath
  | cons level tail =>
    obtain ⟨opening, surplus⟩ := level
    cases surplus with
    | none => cases hopened
    | some surplus =>
      cases hpath
      exact ⟨opening, surplus, tail, rfl, rfl, rfl⟩

theorem Levels.eq_of_opened_cons {opening : Opening} {opened : List Opening}
    (hopened : levels.opened = opening :: opened) :
    ∃ tail : Levels, levels = ⟨opening, none⟩ :: tail ∧ tail.opened = opened := by
  cases levels with
  | nil => cases hopened
  | cons level tail =>
    obtain ⟨opening', surplus⟩ := level
    cases surplus with
    | some surplus => cases hopened
    | none =>
      cases hopened
      exact ⟨tail, rfl, rfl⟩

theorem Sound.supplies (h : Sound L Δ sites levels depth m) (hwords : L.WordSized Δ)
    (hcells : m.memory.capacity < 2 ^ 63)
    (hplaced : Placed L Δ sites m.pc line (levels.site depth)) : L.Supplies Δ m line := by
  have htop := h.top
  have hroom := h.room
  have haddress : m.top = m.base + depth + levels.surplus := by
    rw [htop, h.base]
    rfl
  cases hplaced with
  | lit | cap | cal | jmp => trivial
  | @opr _ level operator hdepth _ =>
    refine ⟨operator, operator.ofOperand?_operand, ?_⟩
    simp only [Levels.site] at hdepth
    omega
  | lod hfloor hlevel hlow hhigh _ =>
    obtain ⟨base, hfollow, hoffset, hlt, -⟩ :=
      h.variable hcells hfloor (Nat.le_refl _) hlevel hlow hhigh
    refine ⟨base, hfollow, ?_⟩
    simp only [hoffset, htop]
    exact hlt
  | sto hfloor hlevel hlow hhigh _ =>
    simp only [Levels.site] at hfloor
    obtain ⟨base, hfollow, hoffset, hlt, -⟩ :=
      h.variable hcells (Nat.le_sub_of_add_le hfloor) (Nat.sub_le _ _) hlevel hlow hhigh
    refine ⟨by omega, base, hfollow, ?_⟩
    simp only [hoffset]
    simp only [Levels.address] at hlt htop
    omega
  | @reserve _ level n _ _ _ hsmall _ =>
    intro hneg
    rw [Cell.toInt_ofInt (by omega) (by omega)] at hneg
    omega
  | @discard _ level n hopened hpos hfloor _ =>
    intro hneg
    simp only [Levels.site] at hopened
    simp only [Site.floor, Levels.site, hopened] at hfloor ⊢
    rw [Cell.toInt_ofInt (by omega) (by omega)]
    omega
  | @ret _ closing name outer types variadic ret hpath hopened hf _ hvalue =>
    intro hclosing
    obtain ⟨opening, surplus, tail, rfl, rfl, rfl⟩ := Levels.eq_of_opened_nil hopened hpath
    obtain ⟨-, _, ⟨_, _, _, _, -, hentry, -⟩, -⟩ := h.standing.2.entered rfl
    simp only [Levels.site] at hvalue ⊢
    rw [Cell.toAddress_ofInt (hwords.results hentry hf)]
    have := hvalue hclosing
    omega
  | jpc hfloor _ _ _ =>
    simp only [Levels.site] at hfloor
    show 0 < m.top
    omega

/-- Every line leads on with the levels standing, or asks for too many cells, or closes a block. -/
theorem Sound.reacts (h : Sound L Δ sites levels depth m) (hmap : StackMap L Δ sites)
    (hwords : L.WordSized Δ) (hcells : m.memory.capacity < 2 ^ 63)
    (hline : L.lines[m.pc]? = some line) : Reacts L Δ sites levels m line := by
  have hplaced := hmap.placed hline h.site
  have hfetch := Listing.fetch hline
  have htop := h.top
  have hroom := h.room
  have hlines := hwords.lines
  have haddress : m.top = m.base + depth + levels.surplus := by
    rw [htop, h.base]
    rfl
  cases hplaced with
  | lit hfloor hsite =>
    by_cases hfree : m.top < m.memory.capacity
    · exact h.pushes ⟨by simp, by simp, by simp⟩ (Machine.step_lit hfetch hfree) hsite htop
        h.edge hfree
    · refine .overflow (Machine.faults_lit hfetch (by omega)) ?_
      show m.memory.capacity < m.top + 1
      omega
  | @opr _ level operator hfloor hsite =>
    have hoperator := operator.ofOperand?_operand
    simp only [Levels.site] at hfloor
    have hedge := h.edge_le (Nat.le_sub_of_add_le hfloor)
    cases hunary : operator.isUnary with
    | true =>
      have harity : operator.arity = 1 := by simp [Operator.arity, hunary]
      rw [harity] at hfloor hsite hedge
      have hbelow := @Sound.top_eq _ _ _ _ _ _ 1 h (by omega)
      exact h.pushes ⟨by simp, by simp, by simp⟩
        (Machine.step_unary hfetch hoperator hunary hbelow (by omega)) hsite rfl hedge (by omega)
    | false =>
      have harity : operator.arity = 2 := by simp [Operator.arity, hunary]
      rw [harity] at hfloor hsite hedge
      have hbelow := @Sound.top_eq _ _ _ _ _ _ 2 h (by omega)
      exact h.pushes ⟨by simp, by simp, by simp⟩
        (Machine.step_binary hfetch hoperator hunary hbelow (by omega)) hsite rfl hedge (by omega)
  | lod hfloor hlevel hlow hhigh hsite =>
    obtain ⟨base, hfollow, hoffset, hlt, -⟩ :=
      h.variable hcells hfloor (Nat.le_refl _) hlevel hlow hhigh
    have hlt : base + _ < levels.address depth := hlt
    rw [← htop, ← hoffset] at hlt
    by_cases hfree : m.top < m.memory.capacity
    · exact h.pushes ⟨by simp, by simp, by simp⟩
        (Machine.step_lod hfollow hfetch (by omega) hfree) hsite htop h.edge hfree
    · refine .overflow (Machine.faults_lod hfollow hfetch (by omega) (by omega)) ?_
      show m.memory.capacity < m.top + 1
      omega
  | sto hfloor hlevel hlow hhigh hsite =>
    simp only [Levels.site] at hfloor
    have hfloor := Nat.le_sub_of_add_le hfloor
    obtain ⟨base, hfollow, hoffset, hlt, hvariable⟩ :=
      h.variable hcells hfloor (Nat.sub_le _ _) hlevel hlow hhigh
    have hbelow := @Sound.top_eq _ _ _ _ _ _ 1 h (by omega)
    have hstep := Machine.step_sto hfollow hfetch hbelow (by omega) (by rw [hoffset]; omega)
    rw [hoffset] at hstep
    refine h.stays ⟨by simp, by simp, by simp⟩ hstep hsite rfl rfl rfl (h.edge_le hfloor) ?_
      fun i hi => ?_
    · simp only [Machine.moved_top, Machine.moved_memory, Memory.capacity_put]
      omega
    · refine .inl ?_
      obtain rfl : i = base + _ :=
        Decidable.byContradiction fun hne => hi (Memory.cell_put_of_ne hne)
      exact hvariable
  | @reserve _ level n hopened hdepth hsize hsmall hsite =>
    have hn : (Int64.ofInt n).toInt = n := Cell.toInt_ofInt (by omega) (by omega)
    by_cases hfree : m.top + n ≤ m.memory.capacity
    · refine h.stays ⟨by simp, by simp, by simp⟩ (Machine.step_reserve hfetch hn hfree) hsite
        rfl rfl ?_ ?_ ?_ fun i hi => .inr ?_
      · rw [Machine.moved_top, htop]
        exact (Levels.address_add levels depth n).symm
      · exact Nat.le_trans h.edge (Nat.le_add_right _ _)
      · simpa using hfree
      · refine Decidable.byContradiction fun hlt => hi (Memory.cell_write_of_lt ?_)
        have := h.edge
        omega
    · refine .overflow (Machine.faults_reserve hfetch hn (by omega)) ?_
      show 0 < (Int64.ofInt n).toInt ∧ (m.memory.capacity : Int) < m.top + (Int64.ofInt n).toInt
      rw [hn]
      omega
  | @discard _ level n hopened hpos hfloor hsite =>
    simp only [Levels.site] at hfloor
    have hn : (Int64.ofInt (-(n : Int))).toInt = -n := Cell.toInt_ofInt (by omega) (by omega)
    have hbelow := @Sound.top_eq _ _ _ _ _ _ n h (by omega)
    refine h.stays ⟨by simp, by simp, by simp⟩ (Machine.step_discard hfetch hn hbelow hroom)
      hsite rfl rfl rfl (h.edge_le (Nat.le_sub_of_add_le hfloor)) ?_ fun i hi => absurd rfl hi
    simp only [Machine.moved_top, Machine.moved_memory]
    omega
  | cap hfloor hlevel hdepth houter hmatches hsite =>
    exact h.opens hcells hfetch rfl hfloor hlevel hdepth houter hmatches hsite
  | cal hopened hcall hentry hf hargs _ hsite hbehind =>
    obtain ⟨tail, rfl, rfl⟩ := Levels.eq_of_opened_cons hopened
    exact h.enters hmap hlines hcells hfetch rfl hcall hentry hf hargs hsite hbehind
  | ret hpath hopened hf _ hvalue =>
    obtain ⟨opening, surplus, tail, rfl, rfl, rfl⟩ := Levels.eq_of_opened_nil hopened hpath
    exact h.leaves hwords hcells hfetch rfl rfl hf hvalue
  | @jmp _ level target hfloor hsmall hsite =>
    have hstep := Machine.step_jmp hfetch
    rw [Cell.toAddress_ofInt (by omega)] at hstep
    exact h.stays ⟨by simp, by simp, by simp⟩ hstep hsite rfl rfl htop h.edge hroom
      fun i hi => absurd rfl hi
  | @jpc _ level target hfloor hsmall hsite hsite' =>
    simp only [Levels.site] at hfloor
    have hbelow := @Sound.top_eq _ _ _ _ _ _ 1 h (by omega)
    have hstep := Machine.step_jpc hfetch hbelow (by omega)
    rw [Cell.toAddress_ofInt (by omega)] at hstep
    refine h.stays ⟨by simp, by simp, by simp⟩ hstep ?_ rfl rfl rfl
      (h.edge_le (Nat.le_sub_of_add_le hfloor)) ?_ fun i hi => absurd rfl hi
    · show sites (if _ then _ else _) = _
      split
      · exact hsite
      · exact hsite'
    · show levels.address (depth - 1) ≤ m.memory.capacity
      omega

end Steps

end PCode.Codegen
