import PCode.Diagnostic
import PCode.Proofs.Codegen.Generation
import PCode.Proofs.Frames.Steps
import PCode.Proofs.Machine.Runs
import PCode.Proofs.Typing.Statements

namespace PCode.Codegen

/-- One step, with the frames on the stack before and behind it. -/
def Listing.next? (L : Listing) (frames : List StackFrame) (m : Machine) :
    Option (List StackFrame × Machine) :=
  match L.lines[m.pc]?, m.step L.image.code with
  | some line, .ok m' => some (L.track m line.instruction frames, m')
  | _, _ => none

/-- A run from one state to another. -/
inductive Listing.Runs (L : Listing) :
    List StackFrame → Machine → List StackFrame → Machine → Prop where
  | refl {frames m} : Runs L frames m frames m
  | step {frames frames₁ frames' m m₁ m'} : L.next? frames m = some (frames₁, m₁) →
      Runs L frames₁ m₁ frames' m' → Runs L frames m frames' m'

/-- A run during which there are always more than `count` frames on the stack. -/
inductive Listing.RunsAbove (L : Listing) (count : Nat) :
    List StackFrame → Machine → List StackFrame → Machine → Prop where
  | refl {frames m} : count < frames.length → RunsAbove L count frames m frames m
  | step {frames frames₁ frames' m m₁ m'} : count < frames.length →
      L.next? frames m = some (frames₁, m₁) → RunsAbove L count frames₁ m₁ frames' m' →
      RunsAbove L count frames m frames' m'

/-- The call whose frame a `cap` opens in `m`, on top of these frames, returns in `m'`: the last
step is the first that leaves no more frames on the stack than there were. -/
inductive Listing.CallReturns (L : Listing) (frames : List StackFrame) (m m' : Machine) : Prop where
  | mk {line frames₁ m₁ frames₂ m₂ frames'} : L.lines[m.pc]? = some line →
      line.instruction.op = .cap → L.next? frames m = some (frames₁, m₁) →
      L.RunsAbove frames.length frames₁ m₁ frames₂ m₂ → L.next? frames₂ m₂ = some (frames', m') →
      frames'.length ≤ frames.length → CallReturns L frames m m'

section Frames

variable {levels outer : Levels} {opening : Opening} {s : Option Nat}

@[simp] theorem Levels.length_frames (levels : Levels) : levels.frames.length = levels.length := by
  induction levels with
  | nil => rfl
  | cons level levels ih => simp [frames, ih]

theorem Levels.Moves.above {L : Listing} {m m' : Machine} {i : Instruction} {levels' inner : Levels}
    (h : Levels.Moves L m i m' levels levels') (hlevels : levels = inner ++ ⟨opening, s⟩ :: outer)
    (hlength : outer.length < levels'.length) :
    ∃ inner' s', levels' = inner' ++ ⟨opening, s'⟩ :: outer := by
  cases h with
  | stays => exact ⟨inner, s, hlevels⟩
  | opens =>
    rw [hlevels]
    exact ⟨_ :: inner, s, rfl⟩
  | enters =>
    cases inner with
    | nil =>
      cases hlevels
      exact ⟨[], _, rfl⟩
    | cons level inner =>
      cases hlevels
      exact ⟨_ :: inner, s, rfl⟩
  | leaves =>
    cases inner with
    | nil =>
      cases hlevels
      omega
    | cons level inner =>
      cases hlevels
      exact ⟨inner, s, rfl⟩

theorem Levels.Moves.back {L : Listing} {m m' : Machine} {i : Instruction} {levels' inner : Levels}
    (h : Levels.Moves L m i m' levels levels') (hlevels : levels = inner ++ ⟨opening, s⟩ :: outer)
    (hlength : levels'.length ≤ outer.length) :
    levels = ⟨opening, s⟩ :: outer ∧ s.isSome ∧ levels' = outer ∧ m'.pc = opening.call + 1 := by
  have hlen := congrArg List.length hlevels
  simp only [List.length_append, List.length_cons] at hlen
  cases h with
  | stays => omega
  | opens =>
    simp only [List.length_cons] at hlength
    omega
  | enters =>
    simp only [List.length_cons] at hlength hlen
    omega
  | leaves _ hpc =>
    simp only [List.length_cons] at hlen
    obtain rfl : inner = [] := List.eq_nil_of_length_eq_zero (by omega)
    cases hlevels
    exact ⟨rfl, rfl, rfl, hpc⟩

variable {L : Listing} {Δ : Context} {sites : Nat → Option Site} {memory : Memory}

theorem Standing.latest_ge {inner : Levels} (h : Standing L Δ sites memory levels)
    (hlevels : levels = inner ++ ⟨opening, s⟩ :: outer) :
    outer.address opening.depth ≤ levels.latest := by
  induction inner generalizing levels with
  | nil =>
    rw [hlevels]
    exact Nat.le_refl _
  | cons level inner ih =>
    subst hlevels
    have hbelow := ih h.1 rfl
    have hedge := h.edge_le_below
    have hlatest := Levels.latest_le_edge (inner ++ ⟨opening, s⟩ :: outer)
    exact Nat.le_trans hbelow (Nat.le_trans hlatest hedge)

theorem Standing.variable_below {inner : Levels} (h : Standing L Δ sites memory levels)
    (hlevels : levels = inner ++ ⟨opening, s⟩ :: outer) {frame : StackFrame} {i : Nat}
    (hframe : frame ∈ levels.frames) (hvariable : frame.Variable L Δ i)
    (hi : i < outer.address opening.depth) : frame ∈ outer.frames := by
  induction inner generalizing levels with
  | nil =>
    subst hlevels
    rcases List.mem_cons.mp hframe with rfl | hframe
    · obtain ⟨_, _, hlow, _⟩ := hvariable
      simp only at hlow
      omega
    · exact hframe
  | cons level inner ih =>
    have hlatest := h.latest_ge hlevels
    subst hlevels
    rcases List.mem_cons.mp hframe with rfl | hframe
    · obtain ⟨_, _, hlow, _⟩ := hvariable
      have hlow : Levels.latest (level :: inner ++ ⟨opening, s⟩ :: outer) + headerSize ≤ i := hlow
      omega
    · exact ih h.1 rfl hframe

end Frames

section Runs

variable {L : Listing} {Δ : Context} {sites : Nat → Option Site} {levels : Levels} {depth : Nat}
  {m m' : Machine} {frames frames' : List StackFrame} {line : Line}

theorem Listing.next?_eq_some_iff : L.next? frames m = some (frames', m') ↔
    ∃ line, L.lines[m.pc]? = some line ∧ m.step L.image.code = .ok m' ∧
      frames' = L.track m line.instruction frames := by
  unfold next?
  split
  · rename_i line _ hline hstep
    simp only [hline, hstep, Option.some.injEq, Prod.mk.injEq, exists_eq_left', Except.ok.injEq]
    exact ⟨fun h => ⟨h.2, h.1.symm⟩, fun h => ⟨h.2.symm, h.1⟩⟩
  · rename_i hnone
    refine ⟨nofun, fun ⟨line, hline, hstep, _⟩ => (hnone line m' hline hstep).elim⟩

/-- Every state that can be reached is reached with some frames on the stack. -/
theorem Listing.Runs.of_reaches (h : m.Reaches L.image.code m') (frames : List StackFrame) :
    ∃ frames', L.Runs frames m frames' m' := by
  induction h using Relation.ReflTransGen.head_induction_on generalizing frames with
  | refl => exact ⟨frames, .refl⟩
  | @head m m₁ hstep _ ih =>
    have hpc := Machine.lt_size_of_step hstep
    rw [Listing.size_code] at hpc
    obtain ⟨frames', hruns⟩ := ih (L.track m L.lines[m.pc].instruction frames)
    exact ⟨frames', .step (Listing.next?_eq_some_iff.mpr
      ⟨_, List.getElem?_eq_getElem hpc, hstep, rfl⟩) hruns⟩

theorem Listing.Runs.reaches (h : L.Runs frames m frames' m') : m.Reaches L.image.code m' := by
  induction h with
  | refl => exact .refl
  | step hnext _ ih =>
    obtain ⟨_, _, hstep, _⟩ := Listing.next?_eq_some_iff.mp hnext
    exact .head hstep ih

theorem Sound.start (hmap : StackMap L Δ sites) (memory : Memory) :
    Sound L Δ sites [] 0 (Machine.start memory) :=
  ⟨hmap.start, trivial, rfl, rfl, rfl, Nat.le_refl _, Nat.zero_le _⟩

theorem Sound.step (h : Sound L Δ sites levels depth m) (hmap : StackMap L Δ sites)
    (hwords : L.WordSized Δ) (hcells : m.memory.capacity < 2 ^ 63)
    (hnext : L.next? levels.frames m = some (frames', m')) : ∃ line levels' depth',
      L.lines[m.pc]? = some line ∧ Sound L Δ sites levels' depth' m' ∧ levels'.frames = frames' ∧
      m'.memory.capacity = m.memory.capacity ∧
      Levels.Moves L m line.instruction m' levels levels' ∧
      ∀ i, m'.memory.cell i ≠ m.memory.cell i →
        (∃ frame ∈ levels.frames, frame.Variable L Δ i) ∨ levels.latest ≤ i := by
  obtain ⟨line, hline, hstep, rfl⟩ := Listing.next?_eq_some_iff.mp hnext
  cases h.reacts hmap hwords hcells hline with
  | step levels' depth' hstep' hsound hmoves hchanges =>
    rw [hstep] at hstep'
    cases hstep'
    exact ⟨line, levels', depth', hline, hsound, hmoves.track, (Machine.step_keeps hstep).1, hmoves,
      hchanges⟩
  | overflow hfaults _ | closing hfaults _ _ =>
    obtain ⟨memory, hfault⟩ := hfaults
    rw [hstep] at hfault
    cases hfault

theorem Listing.Runs.sound (hmap : StackMap L Δ sites) (hwords : L.WordSized Δ)
    (hrun : L.Runs frames m frames' m') (h : Sound L Δ sites levels depth m)
    (hframes : levels.frames = frames) (hcells : m.memory.capacity < 2 ^ 63) :
    ∃ levels' depth', Sound L Δ sites levels' depth' m' ∧ levels'.frames = frames' ∧
      m'.memory.capacity < 2 ^ 63 := by
  induction hrun generalizing levels depth with
  | refl => exact ⟨levels, depth, h, hframes, hcells⟩
  | step hnext _ ih =>
    subst hframes
    obtain ⟨_, levels₁, depth₁, -, hsound, hframes₁, hcapacity, -, -⟩ :=
      h.step hmap hwords hcells hnext
    exact ih hsound hframes₁ (by omega)

/-- While a frame is on the stack, nothing below its base changes but variables. -/
theorem Listing.RunsAbove.keeps (hmap : StackMap L Δ sites) (hwords : L.WordSized Δ)
    {outer inner : Levels} {opening : Opening} {s : Option Nat}
    (hrun : L.RunsAbove outer.length frames m frames' m')
    (h : Sound L Δ sites levels depth m) (hframes : levels.frames = frames)
    (hcells : m.memory.capacity < 2 ^ 63) (hlevels : levels = inner ++ ⟨opening, s⟩ :: outer) :
    ∃ levels' depth' inner' s', Sound L Δ sites levels' depth' m' ∧ levels'.frames = frames' ∧
      m'.memory.capacity < 2 ^ 63 ∧ levels' = inner' ++ ⟨opening, s'⟩ :: outer ∧
      ∀ i < outer.address opening.depth, m'.memory.cell i ≠ m.memory.cell i →
        ∃ frame ∈ outer.frames, frame.Variable L Δ i := by
  induction hrun generalizing levels depth inner s with
  | refl =>
    exact ⟨levels, depth, inner, s, h, hframes, hcells, hlevels, fun i _ hne => absurd rfl hne⟩
  | @step _ frames₁ _ m m₁ m' _ hnext hrest ih =>
    subst hframes
    obtain ⟨_, levels₁, depth₁, -, hsound, hframes₁, hcapacity, hmoves, hchanges⟩ :=
      h.step hmap hwords hcells hnext
    have hlonger : outer.length < levels₁.length := by
      rw [← Levels.length_frames levels₁, hframes₁]
      cases hrest with
      | refl h | step h => exact h
    obtain ⟨inner₁, s₁, hlevels₁⟩ := hmoves.above hlevels hlonger
    obtain ⟨levels', depth', inner', s', hsound', hframes', hcells', hlevels', hkept⟩ :=
      ih hsound hframes₁ (by omega) hlevels₁
    refine ⟨levels', depth', inner', s', hsound', hframes', hcells', hlevels', fun i hi hne => ?_⟩
    by_cases hlast : m'.memory.cell i = m₁.memory.cell i
    · rw [hlast] at hne
      rcases hchanges i hne with ⟨frame, hframe, hvariable⟩ | hle
      · exact ⟨frame, h.standing.variable_below hlevels hframe hvariable hi, hvariable⟩
      · have := h.standing.latest_ge hlevels
        omega
    · exact hkept i hi hlast

/-- Static links lead from the frame of the function that runs to live frames of those around it. -/
theorem Sound.links (h : Sound L Δ sites levels depth m) (hmap : StackMap L Δ sites)
    (hcells : m.memory.capacity < 2 ^ 63) (hline : L.lines[m.pc]? = some line) {k : Nat}
    (hk : k < line.owner.length) : ∃ base, Machine.follow? m.memory k m.base = some base ∧
      ⟨base, some (line.owner.drop k)⟩ ∈ levels.frames ∧ (0 < k → base < m.base) := by
  have howner : line.owner = levels.path := (hmap.placed hline h.site).owner
  rw [howner] at hk ⊢
  obtain ⟨base, hfollow, hchained, hbelow⟩ := h.standing.chained.follow
    (fun frame hframe => h.standing.base_lt hframe) (Nat.le_trans h.edge h.room) (by omega)
    (Nat.le_of_lt hk)
  rw [← h.base] at hfollow hbelow
  refine ⟨base, hfollow, hchained.mem fun hnil => ?_, fun hpos => hbelow hpos hk⟩
  have := congrArg List.length hnil
  simp only [List.length_drop, List.length_nil] at this
  omega

/-- What a call that returns leaves: the registers as they were, the result, and all cells below its
frame but variables of live frames. -/
structure Restores (L : Listing) (Δ : Context) (frames : List StackFrame) (call : Nat) (ret : Ty)
    (m m' : Machine) : Prop where
  base : m'.base = m.base
  next : m'.next = m.next
  top : m'.top = m.top + ret.size
  pc : m'.pc = call + 1
  cells : ∀ i < m.top, m'.memory.cell i ≠ m.memory.cell i → ∃ frame ∈ frames, frame.Variable L Δ i
  headers : ∀ frame ∈ frames, ∀ i, frame.Header i → m'.memory.cell i = m.memory.cell i

theorem Sound.restores (h : Sound L Δ sites levels depth m) (hmap : StackMap L Δ sites)
    (hwords : L.WordSized Δ) (hcells : m.memory.capacity < 2 ^ 63)
    (hreturns : L.CallReturns levels.frames m m') : ∃ call callee ret, L.Matches m.pc call ∧
      L.Calls Δ call callee ret ∧ Restores L Δ levels.frames call ret m m' := by
  obtain @⟨_, frames₁, m₁, frames₂, m₂, frames', hcap, hop, hnext, hrun, hlast, hlength⟩ := hreturns
  obtain ⟨line, levels₁, depth₁, hline, hsound₁, rfl, hcapacity₁, hmoves₁, -⟩ :=
    h.step hmap hwords hcells hnext
  rw [hcap] at hline
  cases hline
  obtain ⟨opening, rfl, haddress, hmatches, hfirst⟩ : ∃ opening,
      levels₁ = ⟨opening, none⟩ :: levels ∧
      levels.address opening.depth = m.top ∧ L.Matches m.pc opening.call ∧
      ∀ i < m.top, m₁.memory.cell i = m.memory.cell i := by
    cases hmoves₁ with
    | opens _ haddress hmatches hfirst => exact ⟨_, rfl, haddress, hmatches, hfirst⟩
    | stays hne => exact absurd hop hne
    | enters hcal =>
      rw [hop] at hcal
      cases hcal
    | leaves hret =>
      rw [hop] at hret
      cases hret
  rw [Levels.length_frames] at hrun hlength
  obtain ⟨levels₂, depth₂, inner, s, hsound₂, rfl, hcells₂, hlevels₂, hkept⟩ :=
    hrun.keeps hmap hwords hsound₁ rfl (by omega) (List.nil_append _).symm
  obtain ⟨_, levels', depth', -, hsound', rfl, -, hmoves', hchanges'⟩ :=
    hsound₂.step hmap hwords hcells₂ hlast
  rw [Levels.length_frames] at hlength
  obtain ⟨rfl, hentered, rfl, hpc⟩ := hmoves'.back hlevels₂ hlength
  obtain ⟨-, ret, hcalls, hsite⟩ := hsound₂.standing.2.entered hentered
  have hdepth : depth' = opening.depth + ret.size := by
    have hsame := hsound'.site
    rw [hpc, hsite] at hsame
    exact (congrArg Site.depth (Option.some.inj hsame)).symm
  have hbelow : ∀ i < m.top, m'.memory.cell i ≠ m.memory.cell i →
      ∃ frame ∈ levels'.frames, frame.Variable L Δ i := by
    intro i hi hne
    -- the first step writes the header, so the change was made on the way or by the last step
    rw [← hfirst i hi] at hne
    by_cases hlastly : m'.memory.cell i = m₂.memory.cell i
    · exact hkept i (by omega) (by rwa [hlastly] at hne)
    · rcases hchanges' i hlastly with ⟨frame, hframe, hvariable⟩ | hle
      · refine ⟨frame, hsound₂.standing.variable_below (List.nil_append _).symm hframe
          hvariable ?_, hvariable⟩
        omega
      · simp only [Levels.latest] at hle
        omega
  refine ⟨opening.call, opening.callee, ret, hmatches, hcalls, ?_, ?_, ?_, hpc, hbelow, ?_⟩
  · rw [hsound'.base, h.base]
  · rw [hsound'.next, h.next]
  · rw [hsound'.top, hdepth, Levels.address_add, haddress]
  · intro frame hframe i hi
    refine Decidable.byContradiction fun hne => ?_
    have hlt := h.standing.header_lt hframe hi
    obtain ⟨other, hother, hvariable⟩ := hbelow i (Nat.lt_of_lt_of_le hlt h.edge) hne
    exact h.standing.variable_not_header hother hframe hvariable hi

end Runs

section Computed

/-- The state after this number of steps. -/
def Listing.after? (L : Listing) : Nat → List StackFrame → Machine →
    Option (List StackFrame × Machine)
  | 0, frames, m => some (frames, m)
  | n + 1, frames, m =>
    match L.next? frames m with
    | some (frames', m') => L.after? n frames' m'
    | none => none

/-- The state in which a run with more than `count` frames on the stack first has no more, if it
gets there in this number of steps. -/
def Listing.back? (L : Listing) (count : Nat) : Nat → List StackFrame → Machine → Option Machine
  | 0, _, _ => none
  | fuel + 1, frames, m =>
    match L.next? frames m with
    | some (frames', m') =>
      if frames'.length ≤ count then some m' else L.back? count fuel frames' m'
    | none => none

variable {L : Listing} {frames frames' : List StackFrame} {m m' : Machine} {n count : Nat}

theorem Listing.runs_of_after? (h : L.after? n frames m = some (frames', m')) :
    L.Runs frames m frames' m' := by
  induction n generalizing frames m with
  | zero =>
    cases h
    exact .refl
  | succ n ih =>
    unfold after? at h
    split at h
    · rename_i hnext
      exact .step hnext (ih h)
    · cases h

theorem Listing.runsAbove_of_back? (h : L.back? count n frames m = some m')
    (hcount : count < frames.length) : ∃ frames₂ m₂ frames',
      L.RunsAbove count frames m frames₂ m₂ ∧ L.next? frames₂ m₂ = some (frames', m') ∧
      frames'.length ≤ count := by
  induction n generalizing frames m with
  | zero => cases h
  | succ n ih =>
    unfold back? at h
    split at h
    · rename_i frames₁ m₁ hnext
      split at h
      · rename_i hlength
        cases h
        exact ⟨frames, m, frames₁, .refl hcount, hnext, hlength⟩
      · rename_i hlength
        obtain ⟨frames₂, m₂, frames', hrun, hlast, hback⟩ := ih h (by omega)
        exact ⟨frames₂, m₂, frames', .step hcount hnext hrun, hlast, hback⟩
    · cases h

/-- The state in which the call returns whose frame a `cap` opens here, if it does so in this number
of steps. -/
def Listing.returned? (L : Listing) (fuel : Nat) (frames : List StackFrame) (m : Machine) :
    Option Machine :=
  match L.lines[m.pc]?, L.next? frames m with
  | some line, some (frames', m') =>
    if line.instruction.op = .cap ∧ frames.length < frames'.length then
      L.back? frames.length fuel frames' m'
    else none
  | _, _ => none

theorem Listing.callReturns_of_returned? (h : L.returned? n frames m = some m') :
    L.CallReturns frames m m' := by
  unfold returned? at h
  split at h
  · rename_i line frames₁ m₁ hline hnext
    split at h
    · rename_i hcap
      obtain ⟨frames₂, m₂, frames', hrun, hlast, hlength⟩ := runsAbove_of_back? h hcap.2
      exact .mk hline hcap.1 hnext hrun hlast hlength
    · cases h
  · cases h

end Computed

end PCode.Codegen

namespace PCode

open Codegen

section Text

variable {text : String} {typed : Program} {Δ : Context} {L : Listing}

theorem listing_stackMap (hcheck : checkText text = .ok (typed, Δ))
    (hlisting : typed.listing Δ = .ok L) (hcode : L.lines.length < 2 ^ 63) :
    ∃ sites, StackMap L Δ sites := by
  obtain ⟨program, htyped⟩ := checkText_typed hcheck
  exact (Program.listing_emits htyped hlisting).stackMap hcode

theorem compileText_listing (hcheck : checkText text = .ok (typed, Δ))
    (hlisting : typed.listing Δ = .ok L) : compileText text = .ok L.image := by
  rw [compileText, hcheck]
  show (typed.compile Δ).mapError _ = _
  rw [Program.compile, hlisting]
  rfl

/-- Every instruction of a run finds what it takes. The only ones that fault ask for more cells than
the memory has, or return at the end of a block. -/
theorem compileText_safe (hcheck : checkText text = .ok (typed, Δ))
    (hlisting : typed.listing Δ = .ok L) (hwords : L.WordSized Δ) (memory : Memory)
    (hcells : memory.capacity < 2 ^ 63) :
    compileText text = .ok L.image ∧
    ∀ m, Machine.Reaches L.image.code (.start memory) m →
      (∀ line, L.lines[m.pc]? = some line → L.Supplies Δ m line) ∧
      (m.Faults L.image.code → ∃ line, L.lines[m.pc]? = some line ∧
        (Overflows m line.instruction ∨ line.instruction.op = .ret ∧ line.closing = true)) := by
  obtain ⟨sites, hmap⟩ := listing_stackMap hcheck hlisting hwords.lines
  refine ⟨compileText_listing hcheck hlisting, fun m hreaches => ?_⟩
  obtain ⟨frames, hruns⟩ := Listing.Runs.of_reaches hreaches []
  obtain ⟨levels, depth, hsound, -, hcells⟩ :=
    hruns.sound hmap hwords (.start hmap memory) rfl hcells
  refine ⟨fun line hline => hsound.supplies hwords hcells (hmap.placed hline hsound.site), ?_⟩
  intro ⟨memory', hfault⟩
  have hpc : m.pc < L.lines.length := by
    refine Decidable.byContradiction fun hpc => ?_
    rw [← Listing.size_code, Nat.not_lt] at hpc
    rw [Machine.step, Array.getElem?_eq_none hpc] at hfault
    cases hfault
  have hline := List.getElem?_eq_getElem hpc
  refine ⟨_, hline, ?_⟩
  cases hsound.reacts hmap hwords hcells hline with
  | step _ _ hstep =>
    rw [hfault] at hstep
    cases hstep
  | overflow _ h => exact .inl h
  | closing _ hret h => exact .inr ⟨hret, h⟩

end Text

/-- A function in another, whose variable it reads. -/
def addText : String :=
  "main:->i64\nmain=\x7b\nlet x=2\nadd:i64->i64\nadd n=n+x\nreturn add(3)\n\x7d"

theorem addText_overflows : (match checkText addText with
    | .ok (typed, Δ) => match typed.listing Δ with
      | .ok L => decide (L.lines.length < 2 ^ 63) &&
        decide (largestResult Δ.symbols.functions < 2 ^ 63) &&
        match L.after? 7 [] (.start (.blank 6)) with
        | some (_, m) => match m.step L.image.code with
          | .error (.faulted _) => true
          | _ => false
        | none => false
      | .error _ => false
    | .error _ => false) = true := by
  decide +kernel

theorem compileText_safe_add : ∃ L m line, compileText addText = .ok (Listing.image L) ∧
    Machine.Reaches L.image.code (.start (.blank 6)) m ∧ m.Faults L.image.code ∧
    L.lines[m.pc]? = some line ∧
    (Overflows m line.instruction ∨ line.instruction.op = .ret ∧ line.closing = true) := by
  have h := addText_overflows
  split at h
  · rename_i typed Δ hcheck
    split at h
    · rename_i L hlisting
      simp only [Bool.and_eq_true, decide_eq_true_eq] at h
      obtain ⟨⟨hcode, hresults⟩, h⟩ := h
      have hfits : L.Fits Δ := ⟨hcode, hresults⟩
      split at h
      · rename_i frames m hafter
        split at h
        · rename_i memory' hfault
          have hreaches := (Listing.runs_of_after? hafter).reaches
          obtain ⟨hcompile, hsafe⟩ :=
            compileText_safe hcheck hlisting hfits.wordSized (.blank 6) (by decide)
          obtain ⟨line, hline, hwhy⟩ := (hsafe m hreaches).2 ⟨memory', hfault⟩
          exact ⟨L, m, line, hcompile, hreaches, ⟨memory', hfault⟩, hline, hwhy⟩
        · cases h
      · cases h
    · cases h
  · cases h

section Frames

variable {text : String} {typed : Program} {Δ : Context} {L : Listing}

/-- Static links lead to live frames of the functions around the one that runs, and a call that
returns leaves the registers and all headers below its frame as they were. -/
theorem compileText_frames (hcheck : checkText text = .ok (typed, Δ))
    (hlisting : typed.listing Δ = .ok L) (hwords : L.WordSized Δ) (memory : Memory)
    (hcells : memory.capacity < 2 ^ 63) :
    (∀ m, Machine.Reaches L.image.code (.start memory) m →
      ∃ frames, L.Runs [] (.start memory) frames m) ∧
    ∀ frames m, L.Runs [] (.start memory) frames m →
      (∀ line, L.lines[m.pc]? = some line → ∀ k < line.owner.length,
        ∃ base, Machine.follow? m.memory k m.base = some base ∧
          ⟨base, some (line.owner.drop k)⟩ ∈ frames ∧ (0 < k → base < m.base)) ∧
      ∀ m', L.CallReturns frames m m' → ∃ call callee ret, L.Matches m.pc call ∧
        L.Calls Δ call callee ret ∧ Restores L Δ frames call ret m m' := by
  obtain ⟨sites, hmap⟩ := listing_stackMap hcheck hlisting hwords.lines
  refine ⟨fun m hreaches => Listing.Runs.of_reaches hreaches [], fun frames m hruns => ?_⟩
  obtain ⟨levels, depth, hsound, rfl, hcells⟩ :=
    hruns.sound hmap hwords (.start hmap memory) rfl hcells
  exact ⟨fun line hline k hk => hsound.links hmap hcells hline hk,
    fun m' hreturns => hsound.restores hmap hwords hcells hreturns⟩

end Frames

theorem addText_returns : (match checkText addText with
    | .ok (typed, Δ) => match typed.listing Δ with
      | .ok L => decide (L.lines.length < 2 ^ 63) &&
        decide (largestResult Δ.symbols.functions < 2 ^ 63) &&
        match L.after? 7 [] (.start (.blank 64)) with
        | some (frames, m) => (L.returned? 8 frames m).isSome
        | none => false
      | .error _ => false
    | .error _ => false) = true := by
  decide +kernel

theorem compileText_frames_add : ∃ L Δ frames m m' call callee ret,
    compileText addText = .ok (Listing.image L) ∧ L.Runs [] (.start (.blank 64)) frames m ∧
    L.CallReturns frames m m' ∧ L.Matches m.pc call ∧ L.Calls Δ call callee ret ∧
    Restores L Δ frames call ret m m' := by
  have h := addText_returns
  split at h
  · rename_i typed Δ hcheck
    split at h
    · rename_i L hlisting
      simp only [Bool.and_eq_true, decide_eq_true_eq] at h
      obtain ⟨⟨hcode, hresults⟩, h⟩ := h
      have hfits : L.Fits Δ := ⟨hcode, hresults⟩
      split at h
      · rename_i frames m hafter
        obtain ⟨m', hback⟩ := Option.isSome_iff_exists.mp h
        have hruns := Listing.runs_of_after? hafter
        have hreturns := Listing.callReturns_of_returned? hback
        obtain ⟨-, hframes⟩ :=
          compileText_frames hcheck hlisting hfits.wordSized (.blank 64) (by decide)
        obtain ⟨call, callee, ret, hmatches, hcalls, hrestores⟩ :=
          (hframes frames m hruns).2 m' hreturns
        exact ⟨L, Δ, frames, m, m', call, callee, ret, compileText_listing hcheck hlisting, hruns,
          hreturns, hmatches, hcalls, hrestores⟩
      · cases h
    · cases h
  · cases h

end PCode
