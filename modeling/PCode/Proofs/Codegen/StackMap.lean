import PCode.Proofs.Codegen.Layout

namespace PCode.Codegen

/-- Lines in which each `cap` has its own `cal` behind it. -/
inductive Balanced : List Line → Prop where
  | nil : Balanced []
  | line {l lines} : l.instruction.op ≠ .cap → l.instruction.op ≠ .cal → Balanced lines →
      Balanced (l :: lines)
  | call {l l' a b} : l.instruction.op = .cap → Balanced a → l'.instruction.op = .cal → Balanced b →
      Balanced (l :: a ++ l' :: b)

/-- The `cal` at the second address enters the frame that the `cap` at the first has opened. -/
def Listing.Matches (L : Listing) (opening call : Nat) : Prop :=
  ∃ a level c, Balanced a ∧ call = opening + 1 + a.length ∧ L.Holds (opening + 1) a ∧
    L.image.code[call]? = some ⟨.cal, level, c⟩

/-- The cells of the frame of a function that hold its header, its parameters and its variables. -/
def Listing.frameSize (L : Listing) (Δ : Context) : List String → Nat
  | [] => 0
  | name :: _ =>
    match Δ.function? name, (L.functions.get? name).bind (L.lines[·]?) with
    | some (.function types _ _), some line =>
      headerSize + cellsOf types + line.instruction.operand.toInt.toNat
    | _, _ => headerSize

theorem Listing.headerSize_le_frameSize {L : Listing} {Δ : Context} {path : List String}
    (h : path ≠ []) : headerSize ≤ L.frameSize Δ path := by
  cases path with
  | nil => exact absurd rfl h
  | cons name outer =>
    rw [Listing.frameSize]
    split
    · exact Nat.le_trans (Nat.le_add_right _ _) (Nat.le_add_right _ _)
    · exact Nat.le_refl _

/-- A frame under construction: the depth at which it starts, the address of the call that enters
it, and the callee with the functions around it. -/
structure Opening where
  depth : Nat
  call : Nat
  callee : String
  outer : List String

/-- The stack in front of an instruction: the function that runs, with those around it, the number
of cells above its base without surplus arguments, and the frames that it has under construction,
innermost first. -/
structure Site where
  path : List String
  depth : Nat
  opened : List Opening := []

namespace Site

/-- The cells that instructions must leave alone: those of variables, or of what stands below the
arguments of a call. -/
def floor (s : Site) (L : Listing) (Δ : Context) : Nat :=
  match s.opened with
  | [] => L.frameSize Δ s.path
  | opening :: _ => opening.depth + headerSize

/-- The same place with another number of cells. -/
def withDepth (s : Site) (depth : Nat) : Site :=
  { s with depth }

/-- The entry of a function with parameters of these types. -/
def entry (name : String) (outer : List String) (types : List Ty) : Site :=
  ⟨name :: outer, headerSize + cellsOf types, []⟩

end Site

/-- `Placed L Δ sites pc line s`: the line stands at `pc`, where the site is `s`; it finds what it
takes, and leads to sites of the map. -/
inductive Placed (L : Listing) (Δ : Context) (sites : Nat → Option Site) (pc : Nat) :
    Line → Site → Prop where
  | lit {s level c} : s.floor L Δ ≤ s.depth → sites (pc + 1) = some (s.withDepth (s.depth + 1)) →
      Placed L Δ sites pc ⟨s.path, ⟨.lit, level, c⟩, false⟩ s
  | opr {s level operator} : s.floor L Δ + Operator.arity operator ≤ s.depth →
      sites (pc + 1) = some (s.withDepth (s.depth - operator.arity + 1)) →
      Placed L Δ sites pc ⟨s.path, ⟨.opr, level, operator.operand⟩, false⟩ s
  | lod {s level offset} : s.floor L Δ ≤ s.depth → level < s.path.length → headerSize ≤ offset →
      offset < L.frameSize Δ (s.path.drop level) →
      sites (pc + 1) = some (s.withDepth (s.depth + 1)) →
      Placed L Δ sites pc ⟨s.path, ⟨.lod, level, Int64.ofInt offset⟩, false⟩ s
  | sto {s level offset} : s.floor L Δ + 1 ≤ s.depth → level < s.path.length →
      headerSize ≤ offset → offset < L.frameSize Δ (s.path.drop level) →
      sites (pc + 1) = some (s.withDepth (s.depth - 1)) →
      Placed L Δ sites pc ⟨s.path, ⟨.sto, level, Int64.ofInt offset⟩, false⟩ s
  | reserve {s level n} :
      s.opened = [] → headerSize ≤ s.depth → s.depth + n = L.frameSize Δ s.path →
      n < 2 ^ 63 → sites (pc + 1) = some (s.withDepth (s.depth + n)) →
      Placed L Δ sites pc ⟨s.path, ⟨.ini, level, Int64.ofInt n⟩, false⟩ s
  | discard {s level n} : s.opened = [] → 0 < n → s.floor L Δ + n ≤ s.depth →
      sites (pc + 1) = some (s.withDepth (s.depth - n)) →
      Placed L Δ sites pc ⟨s.path, ⟨.ini, level, Int64.ofInt (-(n : Nat))⟩, false⟩ s
  | cap {s level opening c} : s.floor L Δ ≤ s.depth → level ≤ s.path.length →
      opening.depth = s.depth → opening.outer = s.path.drop level → L.Matches pc opening.call →
      sites (pc + 1) = some ⟨s.path, s.depth + headerSize, opening :: s.opened⟩ →
      Placed L Δ sites pc ⟨s.path, ⟨.cap, level, c⟩, false⟩ s
  | cal {s level opening opened entry types variadic ret} : s.opened = opening :: opened →
      opening.call = pc → L.functions.get? opening.callee = some entry →
      Δ.function? opening.callee = some (.function types variadic ret) →
      opening.depth + headerSize + cellsOf types ≤ s.depth →
      Site.floor ⟨s.path, s.depth, opened⟩ L Δ ≤ opening.depth →
      sites entry = some (.entry opening.callee opening.outer types) →
      sites (pc + 1) = some ⟨s.path, opening.depth + ret.size, opened⟩ →
      Placed L Δ sites pc ⟨s.path, ⟨.cal, level, Int64.ofInt entry⟩, false⟩ s
  | ret {s closing name outer types variadic ret} : s.path = name :: outer → s.opened = [] →
      Δ.function? name = some (.function types variadic ret) → L.frameSize Δ s.path ≤ s.depth →
      (closing = false → L.frameSize Δ s.path + ret.size ≤ s.depth) →
      Placed L Δ sites pc ⟨s.path, ⟨.ret, 0, Int64.ofInt ret.size⟩, closing⟩ s
  | jmp {s level target} : s.floor L Δ ≤ s.depth → target < 2 ^ 63 → sites target = some s →
      Placed L Δ sites pc ⟨s.path, ⟨.jmp, level, Int64.ofInt (target : Nat)⟩, false⟩ s
  | jpc {s level target} : s.floor L Δ + 1 ≤ s.depth → target < 2 ^ 63 →
      sites target = some (s.withDepth (s.depth - 1)) →
      sites (pc + 1) = some (s.withDepth (s.depth - 1)) →
      Placed L Δ sites pc ⟨s.path, ⟨.jpc, level, Int64.ofInt (target : Nat)⟩, false⟩ s

/-- The map has these sites from an address on. -/
def Maps (sites : Nat → Option Site) (start : Nat) (marks : List Site) : Prop :=
  ∀ i s, marks[i]? = some s → sites (start + i) = some s

section Maps

variable {sites : Nat → Option Site} {start : Nat} {s : Site} {marks others : List Site}

theorem maps_cons : Maps sites start (s :: marks) ↔
    sites start = some s ∧ Maps sites (start + 1) marks := by
  constructor
  · intro h
    refine ⟨h 0 s rfl, ?_⟩
    intro i mark hi
    rw [show start + 1 + i = start + (i + 1) by omega]
    exact h (i + 1) mark (by simpa using hi)
  · rintro ⟨hhead, htail⟩ i mark hi
    cases i with
    | zero =>
      obtain rfl : s = mark := by simpa using hi
      exact hhead
    | succ i =>
      rw [show start + (i + 1) = start + 1 + i by omega]
      exact htail i mark (by simpa using hi)

theorem maps_append : Maps sites start (marks ++ others) ↔
    Maps sites start marks ∧ Maps sites (start + marks.length) others := by
  induction marks generalizing start with
  | nil => simp [Maps]
  | cons mark marks ih =>
    rw [List.cons_append, maps_cons, maps_cons, ih, List.length_cons, and_assoc,
      show start + 1 + marks.length = start + (marks.length + 1) by omega]

theorem maps_singleton : Maps sites start [s] ↔ sites start = some s := by
  rw [maps_cons]
  exact and_iff_left fun i mark hi => by simp at hi

theorem Maps.head (h : Maps sites start marks) (hs : marks.head? = some s) :
    sites start = some s := by
  cases marks with
  | nil => simp at hs
  | cons mark marks =>
    obtain rfl : mark = s := by simpa using hs
    exact (maps_cons.mp h).1

end Maps

/-- The map has the entry of a function. -/
def Enters (L : Listing) (Δ : Context) (sites : Nat → Option Site) (name : String)
    (outer : List String) : Prop :=
  ∀ entry types variadic ret, L.functions.get? name = some entry →
    Δ.function? name = some (.function types variadic ret) →
    sites entry = some (.entry name outer types)

/-- The lines stand from an address on, where the sites are these. -/
inductive PlacedAll (L : Listing) (Δ : Context) (sites : Nat → Option Site) :
    Nat → List Line → List Site → Prop where
  | nil {pc} : PlacedAll L Δ sites pc [] []
  | cons {pc l s lines marks} : Placed L Δ sites pc l s → PlacedAll L Δ sites (pc + 1) lines marks →
      PlacedAll L Δ sites pc (l :: lines) (s :: marks)

/-- Functions by their names and those around them. -/
abbrev Functions := String → List String → Prop

/-- No functions. -/
def Functions.none : Functions :=
  fun _ _ => False

/-- Code from an address on leads from one site to another: there are sites for all of its lines
that are sound in every map that has them, if it has the entries of the functions that are known. It
has those of the functions defined in the code. -/
def Mapped (L : Listing) (Δ : Context) (known defined : Functions) (start : Nat) (lines : List Line)
    (s s' : Site) : Prop :=
  ∃ marks : List Site, marks.length = lines.length ∧ (marks ++ [s']).head? = some s ∧
    ∀ sites, Maps sites start (marks ++ [s']) →
      (∀ name outer, defined name outer → Enters L Δ sites name outer) ∧
      ((∀ name outer, known name outer → Enters L Δ sites name outer) →
        PlacedAll L Δ sites start lines marks)

section Mapped

variable {L : Listing} {Δ : Context} {known defined defined' : Functions} {start : Nat}
  {line : Line} {lines a b : List Line} {s s₁ s' : Site}

theorem PlacedAll.append {sites : Nat → Option Site} {marks others : List Site}
    (h : PlacedAll L Δ sites start a marks)
    (h' : PlacedAll L Δ sites (start + a.length) b others) :
    PlacedAll L Δ sites start (a ++ b) (marks ++ others) := by
  induction h with
  | nil => exact h'
  | cons hl _ ih =>
    refine .cons hl (ih ?_)
    rw [List.length_cons, ← Nat.add_assoc, Nat.add_right_comm] at h'
    exact h'

theorem PlacedAll.getElem {sites : Nat → Option Site} {marks : List Site} {pc i : Nat} {mark : Site}
    (h : PlacedAll L Δ sites pc lines marks) (hl : lines[i]? = some line)
    (hs : marks[i]? = some mark) : Placed L Δ sites (pc + i) line mark := by
  induction h generalizing i with
  | nil => simp at hl
  | cons hplaced _ ih =>
    cases i with
    | zero =>
      simp only [List.getElem?_cons_zero, Option.some.injEq] at hl hs
      subst hl hs
      exact hplaced
    | succ i =>
      rw [show ∀ pc, pc + (i + 1) = pc + 1 + i by omega]
      exact ih (by simpa using hl) (by simpa using hs)

theorem Mapped.nil : Mapped L Δ known .none start [] s s :=
  ⟨[], rfl, rfl, fun _ _ => ⟨fun _ _ h => h.elim, fun _ => .nil⟩⟩

theorem Mapped.cons (hline : ∀ sites, sites (start + 1) = some s₁ →
      (∀ name outer, known name outer → Enters L Δ sites name outer) →
        Placed L Δ sites start line s)
    (h : Mapped L Δ known defined (start + 1) lines s₁ s') :
    Mapped L Δ known defined start (line :: lines) s s' := by
  obtain ⟨marks, hlen, hhead, hmarks⟩ := h
  refine ⟨s :: marks, by simp [hlen], rfl, fun sites hmaps => ?_⟩
  rw [List.cons_append, maps_cons] at hmaps
  obtain ⟨hdefined, hplaced⟩ := hmarks sites hmaps.2
  exact ⟨hdefined, fun hknown => .cons (hline sites (hmaps.2.head hhead) hknown) (hplaced hknown)⟩

theorem Mapped.append (h : Mapped L Δ known defined start a s s₁)
    (h' : Mapped L Δ known defined' (start + a.length) b s₁ s') :
    Mapped L Δ known (fun name outer => defined name outer ∨ defined' name outer) start (a ++ b) s
      s' := by
  obtain ⟨marks, hlen, hhead, hmarks⟩ := h
  obtain ⟨others, hlen', hhead', hothers⟩ := h'
  refine ⟨marks ++ others, by simp [hlen, hlen'], ?_, fun sites hmaps => ?_⟩
  · cases marks with
    | nil =>
      obtain rfl : s₁ = s := by simpa using hhead
      exact hhead'
    | cons mark marks => simpa using hhead
  · rw [List.append_assoc, maps_append] at hmaps
    rw [hlen] at hmaps
    have hfirst : Maps sites start (marks ++ [s₁]) := by
      rw [maps_append, maps_singleton, hlen]
      exact ⟨hmaps.1, hmaps.2.head hhead'⟩
    obtain ⟨hdefined, hplaced⟩ := hmarks sites hfirst
    obtain ⟨hdefined', hplaced'⟩ := hothers sites hmaps.2
    refine ⟨?_, fun hknown => (hplaced hknown).append (hplaced' hknown)⟩
    rintro name outer (h | h)
    · exact hdefined name outer h
    · exact hdefined' name outer h

theorem Mapped.seq (h : Mapped L Δ known .none start a s s₁)
    (h' : Mapped L Δ known .none (start + a.length) b s₁ s') :
    Mapped L Δ known .none start (a ++ b) s s' := by
  obtain ⟨marks, hlen, hhead, hmarks⟩ := h.append h'
  exact ⟨marks, hlen, hhead, fun sites hmaps => ⟨fun _ _ h => h.elim, (hmarks sites hmaps).2⟩⟩

theorem Mapped.single (hline : ∀ sites, sites (start + 1) = some s' →
      (∀ name outer, known name outer → Enters L Δ sites name outer) →
      Placed L Δ sites start line s) :
    Mapped L Δ known .none start [line] s s' :=
  .cons hline .nil

theorem Mapped.block {known' : Functions} (h : Mapped L Δ known' defined start lines s s')
    (hknown : ∀ name outer, known' name outer → known name outer ∨ defined name outer) :
    Mapped L Δ known .none start lines s s' := by
  obtain ⟨marks, hlen, hhead, hmarks⟩ := h
  refine ⟨marks, hlen, hhead, fun sites hmaps => ⟨fun _ _ h => h.elim, fun henters => ?_⟩⟩
  obtain ⟨hdefined, hplaced⟩ := hmarks sites hmaps
  refine hplaced fun name outer h => ?_
  rcases hknown name outer h with h | h
  · exact henters name outer h
  · exact hdefined name outer h

theorem Mapped.weaken (h : Mapped L Δ known defined start lines s s')
    (hdefined : ∀ name outer, defined' name outer → defined name outer) :
    Mapped L Δ known defined' start lines s s' := by
  obtain ⟨marks, hlen, hhead, hmarks⟩ := h
  refine ⟨marks, hlen, hhead, fun sites hmaps => ?_⟩
  obtain ⟨h, hplaced⟩ := hmarks sites hmaps
  exact ⟨fun name outer hd => h name outer (hdefined name outer hd), hplaced⟩

theorem Mapped.function {name : String} {outer : List String} {types : List Ty} {variadic : Bool}
    {ret : Ty} (h : Mapped L Δ known .none start lines (.entry name outer types) s')
    (hentry : L.functions.get? name = some start)
    (hf : Δ.function? name = some (.function types variadic ret)) :
    Mapped L Δ known (fun name' outer' => name' = name ∧ outer' = outer) start lines
      (.entry name outer types) s' := by
  obtain ⟨marks, hlen, hhead, hmarks⟩ := h
  refine ⟨marks, hlen, hhead, fun sites hmaps => ⟨?_, (hmarks sites hmaps).2⟩⟩
  rintro _ _ ⟨rfl, rfl⟩ entry types' variadic' ret' hentry' hf'
  rw [hentry] at hentry'
  rw [hf] at hf'
  cases hentry'
  cases hf'
  exact hmaps.head hhead

theorem Mapped.skip {env : Env} (h : Mapped L Δ known defined (start + 1) lines s₁ s)
    (hpath : s.path = env.path) (hfloor : s.floor L Δ ≤ s.depth)
    (hsmall : start + 1 + lines.length < 2 ^ 63) :
    Mapped L Δ known defined start
      (env.line .jmp 0 (Int64.ofInt (start + 1 + lines.length : Nat)) :: lines) s s := by
  obtain ⟨marks, hlen, hhead, hmarks⟩ := h
  refine ⟨s :: marks, by simp [hlen], rfl, fun sites hmaps => ?_⟩
  rw [List.cons_append, maps_cons] at hmaps
  obtain ⟨hdefined, hplaced⟩ := hmarks sites hmaps.2
  refine ⟨hdefined, fun hknown => .cons ?_ (hplaced hknown)⟩
  rw [maps_append, maps_singleton, hlen] at hmaps
  unfold Env.line
  rw [← hpath]
  exact .jmp hfloor hsmall hmaps.2.2

theorem Mapped.choose {env : Env} (ha : Mapped L Δ known .none (start + 1) a
      (s.withDepth (s.depth - 1)) s')
    (hb : Mapped L Δ known .none (start + 1 + a.length + 1) b (s.withDepth (s.depth - 1)) s')
    (hpath : s.path = env.path) (hpath' : s'.path = env.path)
    (hfloor : s.floor L Δ + 1 ≤ s.depth) (hfloor' : s'.floor L Δ ≤ s'.depth)
    (hsmall : start + 1 + a.length + 1 + b.length < 2 ^ 63) :
    Mapped L Δ known .none start (chooseLines env start a b) s s' := by
  obtain ⟨marks, hlen, hhead, hmarks⟩ := ha
  obtain ⟨others, hlen', hhead', hothers⟩ := hb
  refine ⟨[s] ++ marks ++ [s'] ++ others, by simp [hlen, hlen']; omega, rfl, fun sites hmaps => ?_⟩
  refine ⟨fun _ _ h => h.elim, fun hknown => ?_⟩
  simp only [List.append_assoc, maps_append, maps_singleton, List.length_singleton, hlen,
    hlen'] at hmaps
  obtain ⟨-, hm, hjump, hm', hend⟩ := hmaps
  have hma : Maps sites (start + 1) (marks ++ [s']) := by
    rw [maps_append, maps_singleton, hlen]
    exact ⟨hm, hjump⟩
  have hmb : Maps sites (start + 1 + a.length + 1) (others ++ [s']) := by
    rw [maps_append, maps_singleton, hlen']
    exact ⟨hm', hend⟩
  have hjpc : Placed L Δ sites start
      (env.line .jpc 0 (Int64.ofInt (start + 1 + a.length + 1 : Nat))) s := by
    unfold Env.line
    rw [← hpath]
    exact .jpc hfloor (by omega) (hmb.head hhead') (hma.head hhead)
  have hjmp : Placed L Δ sites (start + 1 + a.length)
      (env.line .jmp 0 (Int64.ofInt (start + 1 + a.length + 1 + b.length : Nat))) s' := by
    unfold Env.line
    rw [← hpath']
    exact .jmp hfloor' hsmall hend
  have hrest := (PlacedAll.cons hjmp .nil).append ((hothers sites hmb).2 hknown)
  have hthen := ((hmarks sites hma).2 hknown).append hrest
  have hall := PlacedAll.cons hjpc hthen
  rw [chooseLines]
  simpa only [List.cons_append, List.nil_append, List.append_assoc] using hall

theorem Mapped.loop {env : Env} (ha : Mapped L Δ known .none start a s (s.withDepth (s.depth + 1)))
    (hb : Mapped L Δ known .none (start + a.length + 1) b s s) (hpath : s.path = env.path)
    (hfloor : s.floor L Δ ≤ s.depth) (hsmall : start + a.length + 1 + b.length + 1 < 2 ^ 63) :
    Mapped L Δ known .none start
      (a ++ [env.line .jpc 0 (Int64.ofInt (start + a.length + 1 + b.length + 1 : Nat))] ++ b
        ++ [env.line .jmp 0 (Int64.ofInt start)]) s s := by
  obtain ⟨marks, hlen, hhead, hmarks⟩ := ha
  obtain ⟨others, hlen', hhead', hothers⟩ := hb
  refine ⟨marks ++ [s.withDepth (s.depth + 1)] ++ others ++ [s], by simp [hlen, hlen'], ?_,
    fun sites hmaps => ⟨fun _ _ h => h.elim, fun hknown => ?_⟩⟩
  · cases marks with
    | nil => simpa using hhead
    | cons mark marks => simpa using hhead
  · have hstart : sites start = some s := by
      refine hmaps.head ?_
      cases marks with
      | nil => simpa using hhead
      | cons mark marks => simpa using hhead
    simp only [List.append_assoc, maps_append, maps_singleton, List.length_singleton, hlen,
      hlen'] at hmaps
    obtain ⟨hm, htest, hm', hback, hend⟩ := hmaps
    have hma : Maps sites start (marks ++ [s.withDepth (s.depth + 1)]) := by
      rw [maps_append, maps_singleton, hlen]
      exact ⟨hm, htest⟩
    have hmb : Maps sites (start + a.length + 1) (others ++ [s]) := by
      rw [maps_append, maps_singleton, hlen']
      exact ⟨hm', hback⟩
    have hjpc : Placed L Δ sites (start + a.length)
        (env.line .jpc 0 (Int64.ofInt (start + a.length + 1 + b.length + 1 : Nat)))
        (s.withDepth (s.depth + 1)) := by
      unfold Env.line
      rw [← hpath]
      exact .jpc (s := s.withDepth (s.depth + 1)) (Nat.succ_le_succ hfloor) hsmall hend
        (hmb.head hhead')
    have hjmp : Placed L Δ sites (start + a.length + 1 + b.length)
        (env.line .jmp 0 (Int64.ofInt start)) s := by
      unfold Env.line
      rw [← hpath]
      exact .jmp hfloor (by omega) hstart
    have hbody := ((hothers sites hmb).2 hknown).append (PlacedAll.cons hjmp .nil)
    have hall := ((hmarks sites hma).2 hknown).append (PlacedAll.cons hjpc hbody)
    simpa only [List.cons_append, List.nil_append, List.append_assoc] using hall

end Mapped

end PCode.Codegen
