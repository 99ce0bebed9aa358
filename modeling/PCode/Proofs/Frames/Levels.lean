import PCode.Proofs.Codegen.StackMap
import PCode.Proofs.Machine.Steps

namespace PCode.Codegen

/-- A frame on the stack: its base and, once it is entered, the function that runs in it with those
around it. -/
structure StackFrame where
  base : Nat
  owner : Option (List String)

namespace StackFrame

/-- The cell is one of the static link, the base of the caller and the return address; the base of
the frame under construction before is kept in the last one until the frame is entered. -/
def Header (frame : StackFrame) (i : Nat) : Prop :=
  frame.base ≤ i ∧ i < frame.base + headerSize

/-- The cell belongs to a variable of the function that runs in the frame. -/
def Variable (L : Listing) (Δ : Context) (frame : StackFrame) (i : Nat) : Prop :=
  ∃ path, frame.owner = some path ∧ frame.base + headerSize ≤ i ∧
    i < frame.base + L.frameSize Δ path

end StackFrame

/-- A frame that has been opened: what it was opened for and, once it is entered, the number of
cells of surplus arguments in it. -/
structure Level where
  opening : Opening
  surplus : Option Nat

/-- The levels of a stack, innermost first. -/
abbrev Levels := List Level

namespace Levels

/-- The function that runs, with those around it. -/
def path : Levels → List String
  | [] => []
  | ⟨opening, some _⟩ :: _ => opening.callee :: opening.outer
  | ⟨_, none⟩ :: levels => path levels

/-- The cells of surplus arguments in the frame of the function that runs. -/
def surplus : Levels → Nat
  | [] => 0
  | ⟨_, some surplus⟩ :: _ => surplus
  | ⟨_, none⟩ :: levels => surplus levels

/-- The frames that the function that runs has under construction. -/
def opened : Levels → List Opening
  | [] => []
  | ⟨_, some _⟩ :: _ => []
  | ⟨opening, none⟩ :: levels => opening :: opened levels

/-- The base of the frame of the function that runs. -/
def base : Levels → Nat
  | [] => 0
  | ⟨opening, some _⟩ :: levels => base levels + opening.depth + surplus levels
  | ⟨_, none⟩ :: levels => base levels

/-- The address behind this many cells above the base, surplus arguments not counted. -/
def address (levels : Levels) (depth : Nat) : Nat :=
  levels.base + depth + levels.surplus

/-- The base of the frame under construction. -/
def next : Levels → Nat
  | [] => 0
  | ⟨_, some _⟩ :: levels => next levels
  | ⟨opening, none⟩ :: levels => address levels opening.depth

/-- The place in the function that runs, with this many cells above its base. -/
def site (levels : Levels) (depth : Nat) : Site :=
  ⟨levels.path, depth, levels.opened⟩

/-- The frames on the stack. -/
def frames : Levels → List StackFrame
  | [] => []
  | ⟨opening, surplus⟩ :: levels =>
    ⟨address levels opening.depth, surplus.map fun _ => opening.callee :: opening.outer⟩
      :: frames levels

/-- The base of the latest frame. -/
def latest : Levels → Nat
  | [] => 0
  | ⟨opening, _⟩ :: levels => address levels opening.depth

/-- The end of the latest header. -/
def edge : Levels → Nat
  | [] => 0
  | ⟨opening, _⟩ :: levels => address levels opening.depth + headerSize

end Levels

/-- Static links lead from the base of a frame to those of the functions around it. -/
inductive Chained (memory : Memory) (frames : List StackFrame) : List String → Nat → Prop where
  | ground : Chained memory frames [] 0
  | frame {name outer base link} : ⟨base, some (name :: outer)⟩ ∈ frames →
      memory.cell base = .ofAddress link → (outer ≠ [] → link < base) →
      Chained memory frames outer link → Chained memory frames (name :: outer) base

/-- The call at an address is that of a function with this type. -/
def Listing.Calls (L : Listing) (Δ : Context) (call : Nat) (callee : String) (ret : Ty) : Prop :=
  ∃ level types variadic, ∃ entry : Nat,
    L.image.code[call]? = some ⟨.cal, level, Int64.ofInt entry⟩ ∧
    L.functions.get? callee = some entry ∧
    Δ.function? callee = some (.function types variadic ret)

/-- What the header of a frame holds, and where the function below goes on behind the call. -/
structure Level.Stands (L : Listing) (Δ : Context) (sites : Nat → Option Site) (memory : Memory)
    (levels : Levels) (level : Level) : Prop where
  floor : (levels.site level.opening.depth).floor L Δ ≤ level.opening.depth
  link : ∃ link, memory.cell (levels.address level.opening.depth) = .ofAddress link ∧
    Chained memory levels.frames level.opening.outer link
  caller : memory.cell (levels.address level.opening.depth + 1) = .ofAddress levels.base
  parked : level.surplus = none →
    memory.cell (levels.address level.opening.depth + 2) = .ofAddress levels.next
  entered : level.surplus.isSome →
    memory.cell (levels.address level.opening.depth + 2) = .ofAddress (level.opening.call + 1) ∧
    ∃ ret, L.Calls Δ level.opening.call level.opening.callee ret ∧
      sites (level.opening.call + 1) = some (levels.site (level.opening.depth + ret.size))

/-- All levels stand in the memory. -/
def Standing (L : Listing) (Δ : Context) (sites : Nat → Option Site) (memory : Memory) :
    Levels → Prop
  | [] => True
  | level :: levels => Standing L Δ sites memory levels ∧ level.Stands L Δ sites memory levels

section Chained

variable {memory memory' : Memory} {frames frames' : List StackFrame} {path : List String}
  {base : Nat}

variable (h : Chained memory frames path base)
include h

theorem Chained.mono (hsub : ∀ frame ∈ frames, frame ∈ frames') :
    Chained memory frames' path base := by
  induction h with
  | ground => exact .ground
  | frame hmem hcell hlt _ ih => exact .frame (hsub _ hmem) hcell hlt ih

theorem Chained.congr
    (hcells : ∀ frame ∈ frames, memory'.cell frame.base = memory.cell frame.base) :
    Chained memory' frames path base := by
  induction h with
  | ground => exact .ground
  | frame hmem hcell hlt _ ih => exact .frame hmem ((hcells _ hmem).trans hcell) hlt ih

theorem Chained.follow {limit k : Nat} (hframes : ∀ frame ∈ frames, frame.base < limit)
    (hlimit : limit ≤ memory.capacity) (hsmall : memory.capacity < 2 ^ 64) (hk : k ≤ path.length) :
    ∃ link, Machine.follow? memory k base = some link ∧ Chained memory frames (path.drop k) link ∧
      (0 < k → k < path.length → link < base) := by
  induction h generalizing k with
  | ground =>
    obtain rfl : k = 0 := by simpa using hk
    exact ⟨0, rfl, .ground, by omega⟩
  | @frame name outer base link hmem hcell hlt hrest ih =>
    cases k with
    | zero => exact ⟨base, rfl, .frame hmem hcell hlt hrest, by omega⟩
    | succ k =>
      have hbase := hframes _ hmem
      simp only at hbase
      have hlink : link < 2 ^ 64 := by
        cases hrest with
        | ground => exact Nat.two_pow_pos 64
        | frame hmem' _ _ _ =>
          have := hframes _ hmem'
          simp only at this
          omega
      obtain ⟨link', hfollow, hchained, hbelow⟩ := ih (by simpa using hk)
      refine ⟨link', ?_, hchained, ?_⟩
      · rw [Machine.follow?, Memory.get?_eq, if_pos (by omega)]
        simp only [hcell, Cell.toAddress_ofAddress hlink]
        exact hfollow
      · intro _ hlen
        have hlen : k < outer.length := by simpa using hlen
        have hlink := hlt (List.ne_nil_of_length_pos (by omega))
        cases k with
        | zero =>
          obtain rfl : link = link' := by simpa [Machine.follow?] using hfollow
          exact hlink
        | succ k =>
          have := hbelow (by omega) hlen
          omega

theorem Chained.mem (hpath : path ≠ []) : ⟨base, some path⟩ ∈ frames := by
  cases h with
  | ground => exact absurd rfl hpath
  | frame hmem _ _ _ => exact hmem

end Chained

namespace Standing

variable {L : Listing} {Δ : Context} {sites : Nat → Option Site} {memory memory' : Memory}
  {levels : Levels} {depth i : Nat}

theorem frameSize_le (h : Standing L Δ sites memory levels)
    (hfloor : (levels.site depth).floor L Δ ≤ depth) : L.frameSize Δ levels.path ≤ depth := by
  induction levels generalizing depth with
  | nil => exact hfloor
  | cons level levels ih =>
    obtain ⟨opening, surplus⟩ := level
    cases surplus with
    | some surplus => exact hfloor
    | none =>
      have hbelow := ih h.1 h.2.floor
      have hdepth : opening.depth + headerSize ≤ depth := hfloor
      exact Nat.le_trans hbelow (by simp only; omega)

theorem edge_le (h : Standing L Δ sites memory levels)
    (hfloor : (levels.site depth).floor L Δ ≤ depth) : levels.edge ≤ levels.address depth := by
  cases levels with
  | nil => exact Nat.zero_le _
  | cons level levels =>
    obtain ⟨opening, surplus⟩ := level
    cases surplus with
    | some surplus =>
      have hframe := h.frameSize_le hfloor
      have hheader := @Listing.headerSize_le_frameSize L Δ (opening.callee :: opening.outer)
        (by simp)
      simp only [Levels.path] at hframe
      simp only [Levels.edge, Levels.address, Levels.base, Levels.surplus]
      omega
    | none =>
      have hdepth : opening.depth + headerSize ≤ depth := hfloor
      simp only [Levels.edge, Levels.address, Levels.base, Levels.surplus]
      omega

theorem edge_le_below {level : Level} (h : Standing L Δ sites memory (level :: levels)) :
    levels.edge ≤ levels.address level.opening.depth :=
  h.1.edge_le h.2.floor

variable (h : Standing L Δ sites memory levels)
include h

theorem header_lt {frame : StackFrame} (hframe : frame ∈ levels.frames) (hi : frame.Header i) :
    i < levels.edge := by
  induction levels with
  | nil => simp [Levels.frames] at hframe
  | cons level levels ih =>
    obtain ⟨opening, surplus⟩ := level
    have hedge := h.edge_le_below
    simp only at hedge
    rw [Levels.edge]
    rcases List.mem_cons.mp hframe with rfl | hframe
    · exact hi.2
    · have := ih h.1 hframe
      omega

theorem base_lt {frame : StackFrame} (hframe : frame ∈ levels.frames) : frame.base < levels.edge :=
  h.header_lt hframe ⟨Nat.le_refl _, Nat.lt_add_of_pos_right (Nat.succ_pos 2)⟩

theorem base_le : levels.base ≤ levels.edge := by
  induction levels with
  | nil => exact Nat.le_refl _
  | cons level levels ih =>
    have hedge := h.edge_le_below
    have hbelow := ih h.1
    obtain ⟨opening, surplus⟩ := level
    cases surplus with
    | none => exact Nat.le_trans hbelow (Nat.le_trans hedge (Nat.le_add_right _ _))
    | some surplus => exact Nat.le_add_right _ _

theorem next_le : levels.next ≤ levels.edge := by
  induction levels with
  | nil => exact Nat.le_refl _
  | cons level levels ih =>
    have hedge := h.edge_le_below
    have hbelow := ih h.1
    obtain ⟨opening, surplus⟩ := level
    cases surplus with
    | none => exact Nat.le_add_right _ _
    | some surplus => exact Nat.le_trans hbelow (Nat.le_trans hedge (Nat.le_add_right _ _))

theorem variable_lt (hfloor : (levels.site depth).floor L Δ ≤ depth) {frame : StackFrame}
    (hframe : frame ∈ levels.frames) (hi : frame.Variable L Δ i) : i < levels.address depth := by
  induction levels generalizing depth with
  | nil => simp [Levels.frames] at hframe
  | cons level levels ih =>
    have hedge := h.edge_le hfloor
    have hsize := h.frameSize_le hfloor
    have hbelow := ih h.1 h.2.floor
    obtain ⟨opening, surplus⟩ := level
    rw [Levels.edge] at hedge
    rcases List.mem_cons.mp hframe with rfl | hframe
    · obtain ⟨path, howner, -, hend⟩ := hi
      cases surplus with
      | none => cases howner
      | some surplus =>
        cases howner
        simp only [Levels.path] at hsize
        simp only [Levels.address, Levels.base, Levels.surplus] at hend ⊢
        omega
    · have := hbelow hframe
      simp only at this
      omega

theorem variable_not_header {frame other : StackFrame} (hframe : frame ∈ levels.frames)
    (hother : other ∈ levels.frames) (hi : frame.Variable L Δ i) : ¬ other.Header i := by
  induction levels with
  | nil => simp [Levels.frames] at hframe
  | cons level levels ih =>
    intro hheader
    have hedge := h.edge_le_below
    rcases List.mem_cons.mp hframe with rfl | hframe <;>
      rcases List.mem_cons.mp hother with rfl | hother
    · obtain ⟨path, _, hlow, _⟩ := hi
      have := hheader.2
      omega
    · obtain ⟨path, _, hlow, _⟩ := hi
      have := h.1.header_lt hother hheader
      simp only at hlow
      omega
    · have := h.1.variable_lt h.2.floor hframe hi
      have := hheader.1
      simp only at this
      omega
    · exact ih h.1 hframe hother hheader

theorem congr
    (hcells : ∀ frame ∈ levels.frames, ∀ i, frame.Header i → memory'.cell i = memory.cell i) :
    Standing L Δ sites memory' levels := by
  induction levels with
  | nil => exact h
  | cons level levels ih =>
    have hbelow := fun frame hframe => hcells frame (List.mem_cons_of_mem _ hframe)
    have hhere := hcells _ List.mem_cons_self
    simp only [StackFrame.Header, headerSize] at hhere
    refine ⟨ih h.1 hbelow, h.2.floor, ?_, ?_, ?_, ?_⟩
    · obtain ⟨link, hcell, hchained⟩ := h.2.link
      refine ⟨link, by rw [hhere _ (by omega), hcell], hchained.congr fun frame hframe => ?_⟩
      exact hbelow frame hframe _ ⟨Nat.le_refl _, Nat.lt_add_of_pos_right (Nat.succ_pos 2)⟩
    · rw [hhere _ (by omega), h.2.caller]
    · intro hopen
      rw [hhere _ (by omega), h.2.parked hopen]
    · intro hentered
      obtain ⟨hcell, hcall⟩ := h.2.entered hentered
      exact ⟨by rw [hhere _ (by omega), hcell], hcall⟩

theorem congr_below (hcells : ∀ i < levels.edge, memory'.cell i = memory.cell i) :
    Standing L Δ sites memory' levels :=
  h.congr fun _ hframe _ hi => hcells _ (h.header_lt hframe hi)

theorem chained : Chained memory levels.frames levels.path levels.base := by
  induction levels with
  | nil => exact .ground
  | cons level levels ih =>
    obtain ⟨opening, surplus⟩ := level
    cases surplus with
    | none => exact (ih h.1).mono fun frame hframe => List.mem_cons_of_mem _ hframe
    | some surplus =>
      obtain ⟨link, hcell, hchained⟩ := h.2.link
      refine .frame List.mem_cons_self hcell (fun houter => ?_)
        (hchained.mono fun frame hframe => List.mem_cons_of_mem _ hframe)
      have hbase := h.1.base_lt (hchained.mem houter)
      have hedge := h.edge_le_below
      exact Nat.lt_of_lt_of_le hbase hedge

end Standing

end PCode.Codegen
