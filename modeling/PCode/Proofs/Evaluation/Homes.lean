import PCode.Machine.Step
import PCode.Proofs.Codegen.Layout
import PCode.Proofs.Evaluation.Evaluator
import PCode.Proofs.Machine.Memory

namespace PCode.Evaluation

open Codegen

/-- The cells of a location. -/
structure Home where
  location : Nat
  address : Nat
  size : Nat

namespace Home

/-- No cell of the home is among the `count` cells from an address on. -/
def Avoids (h : Home) (address count : Nat) : Prop :=
  h.address + h.size ≤ address ∨ address + count ≤ h.address

theorem Avoids.part {h : Home} {address count address' count' : Nat} (hav : h.Avoids address count)
    (hle : address ≤ address') (hend : address' + count' ≤ address + count) :
    h.Avoids address' count' := by
  unfold Avoids at hav ⊢
  omega

theorem Avoids.symm {h h' : Home} (hav : h.Avoids h'.address h'.size) :
    h'.Avoids h.address h.size :=
  Or.symm hav

end Home

/-- Homes of different locations share no cells. -/
def Apart (η : List Home) : Prop :=
  ∀ h ∈ η, ∀ h' ∈ η, h = h' ∨ h.location ≠ h'.location ∧ h.Avoids h'.address h'.size

/-- The homes hold what the store says. -/
def Agrees (η : List Home) (σ : Store) (memory : Memory) : Prop :=
  ∀ h ∈ η, ∃ contents, σ[h.location]? = some contents ∧
    ∀ v, contents = some v → v.length = h.size ∧ memory.read h.address h.size = v

/-- The homes of the variables of a block, of which the first has this location; a variable is given
by its offset and its size. -/
def blockHomes (base : Nat) : Nat → List (Nat × Nat) → List Home
  | _, [] => []
  | first, (offset, size) :: slots =>
    ⟨first, base + offset, size⟩ :: blockHomes base (first + 1) slots

section Blocks

variable {f f' base first : Nat} {slots others : List (Nat × Nat)} {h : Home}

theorem blockHomes_append : blockHomes base first (slots ++ others) =
    blockHomes base first slots ++ blockHomes base (first + slots.length) others := by
  induction slots generalizing first with
  | nil => rfl
  | cons slot slots ih =>
    rw [List.cons_append, blockHomes, ih, blockHomes, List.cons_append, List.length_cons,
      Nat.add_assoc, Nat.add_comm 1]

theorem mem_blockHomes (hh : h ∈ blockHomes base first slots) (hwithin : Within f' f slots) :
    (first ≤ h.location ∧ h.location < first + slots.length) ∧
      base + f ≤ h.address ∧ h.address + h.size ≤ base + f' := by
  induction slots generalizing f first with
  | nil => simp [blockHomes] at hh
  | cons slot slots ih =>
    have hfirst := hwithin.1
    have hle := hwithin.2.le
    rw [List.length_cons]
    rcases List.mem_cons.mp hh with rfl | hh
    · refine ⟨⟨Nat.le_refl _, ?_⟩, ?_, ?_⟩ <;> simp only <;> omega
    · have := ih hh hwithin.2
      omega

theorem apart_blockHomes (hwithin : Within f' f slots) : Apart (blockHomes base first slots) := by
  induction slots generalizing f first with
  | nil =>
    intro h hh
    simp [blockHomes] at hh
  | cons slot slots ih =>
    intro h hh h' hh'
    rcases List.mem_cons.mp hh with rfl | hh <;> rcases List.mem_cons.mp hh' with rfl | hh'
    · exact .inl rfl
    · have := mem_blockHomes hh' hwithin.2
      exact .inr ⟨by simp only; omega, .inl (by simp only; omega)⟩
    · have := mem_blockHomes hh hwithin.2
      exact .inr ⟨by simp only; omega, .inr (by simp only; omega)⟩
    · exact ih hwithin.2 h hh h' hh'

end Blocks

/-- The bases along the static links, from the current frame to the ground. -/
inductive Linked (memory : Memory) (top : Nat) : List Nat → Prop where
  | ground : Linked memory top [0]
  | frame {b b' bs} : b + headerSize ≤ top → b' ≤ b → memory.cell b = .ofAddress b' →
      Linked memory top (b' :: bs) → Linked memory top (b :: b' :: bs)

section Linked

variable {memory memory' : Memory} {top top' b : Nat} {bs : List Nat}

theorem Linked.le (h : Linked memory top (b :: bs)) : ∀ b' ∈ b :: bs, b' ≤ b ∧ b' ≤ top := by
  generalize hbases : b :: bs = bases at h
  induction h generalizing b bs with
  | ground =>
    cases hbases
    intro b' hb'
    simp at hb'
    omega
  | frame htop hle _ _ ih =>
    cases hbases
    intro b' hb'
    rcases List.mem_cons.mp hb' with rfl | hb'
    · omega
    · have := ih rfl b' hb'
      omega

theorem Linked.congr (h : Linked memory top bs) (htop : top ≤ top')
    (hcells : ∀ b ∈ bs, b + headerSize ≤ top → memory'.cell b = memory.cell b) :
    Linked memory' top' bs := by
  induction h with
  | ground => exact .ground
  | frame hb hle hcell _ ih =>
    refine .frame (by omega) hle ?_ (ih fun b' hb' => hcells b' (List.mem_cons_of_mem _ hb'))
    rw [hcells _ List.mem_cons_self hb, hcell]

theorem Linked.follow (h : Linked memory top (b :: bs)) (htop : top ≤ memory.capacity)
    (hsmall : memory.capacity < 2 ^ 64) {k base : Nat} (hk : (b :: bs)[k]? = some base) :
    Machine.follow? memory k b = some base := by
  induction k generalizing b bs with
  | zero =>
    obtain rfl : b = base := by simpa using hk
    rfl
  | succ k ih =>
    cases h with
    | ground => simp at hk
    | frame hb hle hcell hrest =>
      have hlt : b < memory.capacity := by
        simp only [headerSize] at hb
        omega
      rw [Machine.follow?, Memory.get?_eq, if_pos hlt]
      simp only [hcell]
      rw [Cell.toAddress_ofAddress (by omega)]
      exact ih hrest (by simpa using hk)

theorem Linked.drop (h : Linked memory top bs) {k : Nat} (hk : k < bs.length) :
    Linked memory top (bs.drop k) := by
  induction k generalizing bs with
  | zero => exact h
  | succ k ih =>
    cases h with
    | ground => simp at hk
    | frame _ _ _ hrest => exact ih hrest (by simpa using hk)

end Linked

section Agrees

variable {η η' : List Home} {σ : Store} {memory memory' : Memory}

theorem Agrees.congr (h : Agrees η σ memory)
    (hcells : ∀ home ∈ η, ∀ i < home.size,
      memory'.cell (home.address + i) = memory.cell (home.address + i)) :
    Agrees η σ memory' := by
  intro home hhome
  obtain ⟨contents, hσ, hv⟩ := h home hhome
  refine ⟨contents, hσ, ?_⟩
  intro v hcontents
  rw [Memory.read_congr (hcells home hhome)]
  exact hv v hcontents

theorem Agrees.mono (h : Agrees η σ memory) (hsub : ∀ home ∈ η', home ∈ η) :
    Agrees η' σ memory :=
  fun home hhome => h home (hsub home hhome)

theorem Agrees.lt (h : Agrees η σ memory) {home : Home} (hhome : home ∈ η) :
    home.location < σ.length := by
  obtain ⟨contents, hσ, -⟩ := h home hhome
  exact (List.getElem?_eq_some_iff.mp hσ).1

theorem Agrees.append (h : Agrees η σ memory) (new : Store) : Agrees η (σ ++ new) memory := by
  intro home hhome
  obtain ⟨contents, hσ, hv⟩ := h home hhome
  refine ⟨contents, ?_, hv⟩
  rw [List.getElem?_append_left (h.lt hhome)]
  exact hσ

theorem Apart.append (h : Apart η) (h' : Apart η')
    (hboth : ∀ home ∈ η, ∀ other ∈ η',
      home.location ≠ other.location ∧ home.Avoids other.address other.size) :
    Apart (η ++ η') := by
  intro home hhome other hother
  rcases List.mem_append.mp hhome with hhome | hhome <;>
    rcases List.mem_append.mp hother with hother | hother
  · exact h home hhome other hother
  · exact .inr (hboth home hhome other hother)
  · have := hboth other hother home hhome
    exact .inr ⟨this.1.symm, this.2.symm⟩
  · exact h' home hhome other hother

theorem Agrees.set (h : Agrees η σ memory) (hapart : Apart η) {home : Home} (hhome : home ∈ η)
    {v : Value} (hlen : v.length = home.size) (hread : memory'.read home.address home.size = v)
    (hcells : ∀ other ∈ η, ∀ i < other.size, home.Avoids (other.address + i) 1 →
      memory'.cell (other.address + i) = memory.cell (other.address + i)) :
    Agrees η (σ.set home.location (some v)) memory' := by
  intro other hother
  rcases hapart home hhome other hother with rfl | ⟨hne, hav⟩
  · refine ⟨some v, by simp [h.lt hhome], ?_⟩
    intro v' hv'
    cases hv'
    exact ⟨hlen, hread⟩
  · obtain ⟨contents, hσ, hv⟩ := h other hother
    refine ⟨contents, ?_, ?_⟩
    · rw [List.getElem?_set_ne hne]
      exact hσ
    · intro v' hv'
      have hsame : memory'.read other.address other.size
          = memory.read other.address other.size :=
        Memory.read_congr fun i hi =>
          hcells other hother i hi (hav.part (by omega) (by omega))
      rw [hsame]
      exact hv v' hv'

end Agrees

end PCode.Evaluation
