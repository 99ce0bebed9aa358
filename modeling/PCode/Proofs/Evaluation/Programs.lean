import PCode.Proofs.Evaluation.Fuel
import PCode.Proofs.Evaluation.Functions

namespace PCode

open Codegen

namespace Evaluation

variable {L : Listing} {context : Context} {p : Program} {bound n : Nat} {memory : Memory}

theorem program_eq (S : Setting) (fuel : Nat) (p : Program) : program S fuel p =
    ((do
      let closure ← require (Scope.function? "main" [.block p 0])
      let vs ← exprs S (invoke S fuel) [.block p 0] []
      invoke S fuel closure vs) []).map Prod.fst := by
  rw [program]
  cases Scope.function? "main" [.block p 0] with
  | none => rfl
  | some closure =>
    simp only [require, exprs, pure_bind]

theorem start_ready (hcells : memory.capacity < 2 ^ 63) (f pc steps : Nat) (hlow : headerSize ≤ f) :
    Ready [] [] [0] f f pc { Machine.start memory with pc, steps } := by
  have hnext : (Machine.start memory).next < 2 ^ 63 := Nat.two_pow_pos 63
  refine ⟨⟨rfl, .ground, ?_, ?_, ?_, ?_, Nat.zero_le _, hcells, hnext⟩, ?_, ?_, hlow, rfl⟩
  · intro home hhome
    cases hhome
  · intro home hhome
    cases hhome
  · intro home hhome
    cases hhome
  · intro home hhome
    cases hhome
  · intro home hhome
    cases hhome
  · intro h
    omega

/-- From the start, the machine does what the evaluator says of the program. -/
theorem program_simulates (hfits : L.Fits context) (h : EmitsProgram L context p)
    (hcells : memory.capacity < 2 ^ 63) (hbound : (n + 1) * L.cost context L.lines ≤ bound) :
    Simulates L.image.code bound n
      ((do
        let closure ← require (Scope.function? "main" [.block p 0])
        let vs ← exprs (setting L context) (invoke (setting L context) n) [.block p 0] []
        invoke (setting L context) n closure vs) [])
      (fun v _ m => L.image.code.size ≤ m.pc ∧ m.exit.stack = v) (Machine.start memory) := by
  cases h with
  | @mk env functions call ret henv htop hcall hlines =>
    subst henv
    have hholds : L.Holds 0 L.lines := fun i line hi => by simpa using hi
    have hlength := hfits.lines
    have hsize : L.lines.length = 1 + functions.length + call.length := by
      rw [hlines, List.length_append, List.length_append, List.length_singleton]
    have hcost := @Listing.cost_le L context call L.lines (by omega)
    rw [Nat.add_mul, Nat.one_mul] at hbound
    rw [hlines, List.append_assoc, holds_append, holds_singleton, holds_append] at hholds
    obtain ⟨hjmp, hfunctions, hholdsCall⟩ := hholds
    simp only [List.length_singleton, Nat.zero_add] at hfunctions hholdsCall
    have hscoped : Scoped L context [] [.block p 0] (hoist { context } p) [0] :=
      .top htop hfunctions
    have hstep := Machine.step_jmp (m := Machine.start memory) (Listing.fetch hjmp)
    rw [Cell.toAddress_ofInt (by omega)] at hstep
    refine .step hstep ?_
    have hcalls : ∀ k, n = k + 1 → FunctionsSimulated L context bound k :=
      fun k _ => functions_simulated hfits
    have hready := start_ready hcells headerSize (1 + functions.length) 1 (Nat.le_refl _)
    have hroom : (Machine.start memory).top + L.cost context call + n * L.cost context L.lines
        ≤ bound := by
      show 0 + _ + _ ≤ bound
      omega
    refine (call_simulates hfits hcalls hcall hholdsCall hscoped hready hroom).imp
      fun v σ' m' hp => ⟨?_, ?_⟩
    · rw [Listing.size_code, hp.pc]
      omega
    · have htop : m'.top = v.length := by
        rw [hp.top]
        exact Nat.zero_add _
      rw [Machine.exit, htop]
      exact hp.value

/-- Cells enough for a program that is evaluated with this fuel. -/
def enough (image : Image) (context : Context) (fuel : Nat) : Nat :=
  (fuel + 1) * (image.code.size *
    (headerSize + image.code.size + largestResult context.symbols.functions))

theorem enough_image (L : Listing) (context : Context) (fuel : Nat) :
    enough L.image context fuel = (fuel + 1) * L.cost context L.lines := by
  rw [enough, Listing.size_code]
  rfl

end Evaluation

open Evaluation

section Text

variable {text : String} {typed : Program} {Δ : Context} {image : Image}

/-- The machine and the evaluator agree on every source that compiles. With as many cells as the
fuel of an evaluation asks for, the machine halts with exactly the value that was given. Where the
machine halts, whatever its memory, the evaluator gives the value that is left, or says nothing. -/
theorem compileText_correct (hcheck : checkText text = .ok (typed, Δ))
    (hcompile : compileText text = .ok image) (hcode : image.code.size < 2 ^ 63)
    (hresults : largestResult Δ.symbols.functions < 2 ^ 63) (memory : Memory)
    (hcells : memory.capacity < 2 ^ 63) :
    (∀ fuel v, Evaluation.program ⟨Δ, image.strings⟩ fuel typed = .ok v →
      enough image Δ fuel ≤ memory.capacity → ∃ n exit memory',
        (Machine.start memory).runFor image.code n = .halted exit memory' ∧ exit.stack = v ∧
        (exit.steps ≤ Machine.stepLimit → image.run memory = .halted exit memory')) ∧
    ∀ exit memory', image.run memory = .halted exit memory' →
      Gives ⟨Δ, image.strings⟩ typed exit.stack ∨ Undefined ⟨Δ, image.strings⟩ typed := by
  obtain ⟨L, rfl, hemits⟩ := compileText_emits hcheck hcompile
  have hfits : L.Fits Δ := ⟨by rwa [Listing.size_code] at hcode, hresults⟩
  have hsimulates := fun n bound hbound => @program_simulates L Δ typed bound n memory hfits hemits
    hcells hbound
  have hprogram := fun fuel => program_eq (setting L Δ) fuel typed
  constructor
  · intro fuel v hv henough
    have hleads := hsimulates fuel memory.capacity (by rwa [← enough_image])
    rw [show (⟨Δ, L.image.strings⟩ : Setting) = setting L Δ from rfl, hprogram] at hv
    obtain ⟨⟨_, σ⟩, hvalue, rfl⟩ := map_eq_ok_iff.mp hv
    rw [hvalue] at hleads
    obtain ⟨n, m, hrun, ⟨-, hstack⟩, hsteps⟩ := hleads.halts (Nat.le_refl _) fun m hm => hm.1
    refine ⟨n, m.exit, m.memory, hrun, hstack, fun hlimit => ?_⟩
    have hn : m.exit.steps = n := hsteps.trans (Nat.zero_add n)
    exact Machine.run_eq_halted_iff.mpr (Machine.halted_mono hrun (by omega))
  · intro exit memory' hrun
    have hrun := Machine.run_eq_halted_iff.mp hrun
    have hsim := hsimulates (Machine.stepLimit + 1) _ (Nat.le_refl _)
    have hvalue := hprogram (Machine.stepLimit + 1)
    generalize (do
      let closure ← require (Scope.function? "main" [.block typed 0])
      let vs ← exprs (setting L Δ) (invoke (setting L Δ) (Machine.stepLimit + 1))
        [.block typed 0] []
      invoke (setting L Δ) (Machine.stepLimit + 1) closure vs : Eval Value) [] = r at hsim hvalue
    match r, hsim, hvalue with
    | .ok (v, σ), hsim, hvalue =>
      obtain ⟨m, ⟨-, hstack⟩, rfl⟩ := Machine.Leads.of_halted hsim (fun m hm => hm.1) hrun
      rw [hstack]
      exact .inl (gives_of_eq_ok hvalue)
    | .error .undefined, _, hvalue => exact .inr (undefined_of_eq_error hvalue)
    | .error .timeout, hsim, _ => exact absurd hrun (Machine.Lasts.not_halted hsim)
    | .error .stuck, hsim, _ =>
      obtain ⟨m, hm, -⟩ := Machine.Leads.of_halted hsim (fun m hm => hm.elim) hrun
      exact hm.elim

end Text

/-- A function that is called by `main`. -/
def incText : String :=
  "inc:i64->i64\ninc n=n+1\nmain:->i64\nmain=inc(2)"

theorem incText_evaluates : (match checkText incText, compileText incText with
    | .ok (typed, Δ), .ok image =>
      decide (image.code.size < 2 ^ 63) && decide (largestResult Δ.symbols.functions < 2 ^ 63) &&
        decide (enough image Δ 3 ≤ 4096) &&
        match Evaluation.program ⟨Δ, image.strings⟩ 3 typed with
        | .ok [c] => c == 3
        | _ => false
    | _, _ => false) = true := by
  decide +kernel

theorem compileText_correct_inc : ∃ image n exit memory', compileText incText = .ok image ∧
    (Machine.start (.blank 4096)).runFor image.code n = .halted exit memory' ∧
      exit.stack = [3] := by
  have h := incText_evaluates
  split at h
  · rename_i typed Δ image hcheck hcompile
    simp only [Bool.and_eq_true, decide_eq_true_eq] at h
    obtain ⟨⟨⟨hcode, hresults⟩, henough⟩, hvalue⟩ := h
    split at hvalue
    · rename_i c hprogram
      obtain rfl : c = 3 := by simpa using hvalue
      obtain ⟨n, exit, memory', hrun, hstack, -⟩ :=
        (compileText_correct hcheck hcompile hcode hresults (.blank 4096) (by decide)).1 3
          [3] hprogram henough
      exact ⟨image, n, exit, memory', hcompile, hrun, hstack⟩
    · cases hvalue
  · cases h

end PCode
