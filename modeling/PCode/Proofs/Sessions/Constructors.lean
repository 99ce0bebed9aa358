import Mathlib.Data.List.Induction
import PCode.Proofs.Typing.Entries
import PCode.Session

namespace PCode

namespace Context

variable {Δ Δ₁ Δ₂ : Context} {name : String} {error : TypeError}

/-- The record of this name comes with the function that builds it. -/
def Constructs (Δ : Context) (name : String) : Prop :=
  ∃ members, Δ.record? name = some (.record name members) ∧
    Δ.function? name = some (.function (members.map Prod.snd) false (.record name members))

/-- There is a record of this name, and a function of this name that does not build it. -/
def Clashes (Δ : Context) (name : String) : Prop :=
  ∃ members τ, Δ.record? name = some (.record name members) ∧ Δ.function? name = some τ ∧
    τ ≠ .function (members.map Prod.snd) false (.record name members)

theorem Constructs.mono (h : Δ.Constructs name) (hext : Δ.Extends Δ₁) : Δ₁.Constructs name := by
  obtain ⟨members, hr, hf⟩ := h
  exact ⟨members, hext.records hr, hext.functions hf⟩

theorem Clashes.mono (h : Δ.Clashes name) (hext : Δ.Extends Δ₁) : Δ₁.Clashes name := by
  obtain ⟨members, τ, hr, hf, hne⟩ := h
  exact ⟨members, τ, hext.records hr, hext.functions hf, hne⟩

theorem Constructs.not_clashes (h : Δ.Constructs name) : ¬ Δ.Clashes name := by
  intro ⟨members, τ, hr, hf, hne⟩
  obtain ⟨members', hr', hf'⟩ := h
  rw [hr, Option.some.injEq, Ty.record.injEq] at hr'
  rw [← hr'.2, hf, Option.some.injEq] at hf'
  exact hne hf'

/-- Entries are kept, and a further record comes with the function that builds it, one refused
record apart. -/
structure Grows (Δ Δ' : Context) (refused : String → Prop) : Prop where
  kept : Δ.Extends Δ'
  built : ∀ name, Δ'.isConstructor name → Δ.isConstructor name ∨ Δ'.Constructs name ∨
    (Δ'.Clashes name ∧ refused name)

variable {refused : String → Prop}

theorem Grows.refl (Δ : Context) : Δ.Grows Δ refused :=
  ⟨.refl Δ, fun _ h => .inl h⟩

theorem Grows.trans (h : Δ.Grows Δ₁ fun _ => False) (h' : Δ₁.Grows Δ₂ refused) :
    Δ.Grows Δ₂ refused := by
  refine ⟨h.kept.trans h'.kept, fun name hname => ?_⟩
  rcases h'.built name hname with hold | hnew
  · rcases h.built name hold with hold | hnew | ⟨_, hfalse⟩
    · exact .inl hold
    · exact .inr (.inl (hnew.mono h'.kept))
    · exact hfalse.elim
  · exact .inr hnew

theorem withFunction_grows {τ : Ty} (h : Δ.function? name = none) :
    Δ.Grows (Δ.withFunction name τ) refused :=
  ⟨withFunction_extends h, fun _ h => .inl h⟩

theorem withDefinition_grows (name : String) (span : Span) :
    Δ.Grows (Δ.withDefinition name span) refused :=
  ⟨withDefinition_extends name span, fun _ h => .inl h⟩

theorem withRecord_grows {members : List (String × Ty)} (hr : Δ.record? name = none)
    (hf : Δ.function? name = none) : Δ.Grows (Δ.withRecord name members) refused := by
  refine ⟨withRecord_extends hr hf, fun other hother => ?_⟩
  by_cases hname : name = other
  · subst hname
    refine .inr (.inl ⟨members, ?_, ?_⟩)
    · simp [withRecord, record?, Symbols.get?, Symbols.ofKind]
    · simp [withRecord, function?, Symbols.get?, Symbols.ofKind]
  · left
    simpa [isConstructor, withRecord, record?, Symbols.get?, Symbols.ofKind, hname] using hother

end Context

open Context

/-- The names that an error reports as taken. -/
def TypeError.Refuses (error : TypeError) (name : String) : Prop :=
  error.fault = .alreadyDeclared name

namespace Context

variable {Δ Δ₁ : Context} {error : TypeError} {refused : String → Prop}

theorem Enters.grows (h : Enters Δ Δ₁) : Δ.Grows Δ₁ refused := by
  cases h with
  | function hnew => exact withFunction_grows hnew
  | record hr hf => exact withRecord_grows hr hf
  | definition span _ => exact withDefinition_grows _ span

theorem Fills.grows (h : Δ.Fills Δ₁) : Δ.Grows Δ₁ fun _ => False := by
  induction h with
  | refl => exact .refl Δ
  | tail _ henters ih => exact ih.trans henters.grows

/-- The type of a record that is refused clashes with the function that has the name, unless this
happens to build the record. -/
theorem Leaves.grows (h : Leaves error Δ Δ₁) : Δ.Grows Δ₁ error.Refuses := by
  cases h with
  | nothing => exact .refl Δ
  | @type name members σ herror hr hf =>
    refine ⟨withType_extends hr, fun other hother => ?_⟩
    by_cases hname : name = other
    · subst hname
      have hrecord : (Δ.withType name members).record? name = some (.record name members) := by
        simp [withType, record?, Symbols.get?, Symbols.ofKind]
      right
      by_cases hσ : σ = .function (members.map Prod.snd) false (.record name members)
      · exact .inl ⟨members, hrecord, hσ ▸ hf⟩
      · exact .inr ⟨⟨members, σ, hrecord, hf, hσ⟩, herror⟩
    · left
      simpa [isConstructor, withType, record?, Symbols.get?, Symbols.ofKind, hname] using hother

end Context

namespace Session

/-- What is done in a session. Running an image changes nothing that is kept. -/
inductive Op where
  | load (source : Source)
  | check
  | compile
  | reset

/-- The session behind an operation; one that fails to read or to compile leaves it as it was. -/
def perform (session : Session) : Op → Session
  | .load source => (session.load source).toOption.getD session
  | .check => session.check.2
  | .compile => session.compile.toOption.getD session
  | .reset => session.reset

/-- The session behind these operations, from a fresh one. -/
def replay (ops : List Op) : Session :=
  ops.foldl perform {}

variable {session : Session} {ops : List Op} {op : Op} {name : String}

@[simp] theorem replay_nil : replay [] = {} := rfl

@[simp] theorem replay_append_singleton : replay (ops ++ [op]) = (replay ops).perform op := by
  simp [replay, List.foldl_append]

theorem load_context (source : Source) :
    (session.perform (.load source)).context = session.context := by
  show ((session.load source).toOption.getD session).context = _
  cases hload : session.load source with
  | error error => rfl
  | ok session' =>
    obtain ⟨program, -, hprogram⟩ := bind_eq_ok_iff.mp hload
    cases hprogram
    rfl

theorem compile_context : (session.perform .compile).context = session.context := by
  show (session.compile.toOption.getD session).context = _
  cases hcompile : session.compile with
  | error error => rfl
  | ok session' =>
    obtain ⟨image, -, himage⟩ := bind_eq_ok_iff.mp hcompile
    cases himage
    rfl

theorem check_grows : session.context.Grows session.check.2.context
    fun name => ∃ error, session.check.1 = some error ∧ error.Refuses name := by
  have hfilled := session.program.check_filled session.context
  unfold Session.check
  cases hcheck : session.program.check session.context with
  | ok answer =>
    rw [hcheck] at hfilled
    exact (Fills.grows hfilled).trans (.refl _)
  | error stopped =>
    rw [hcheck] at hfilled
    obtain ⟨Δ, hfills, hleaves⟩ := hfilled
    have hgrows := hfills.grows.trans hleaves.grows
    exact ⟨hgrows.kept, fun name hname => (hgrows.built name hname).imp_right
      fun h => h.imp_right fun h => ⟨h.1, _, rfl, h.2⟩⟩

/-- The check of the current program stops at a new record of this name, which is refused since a
function has the name. -/
def RefusesRecord (session : Session) (name : String) : Prop :=
  session.context.isConstructor name = false ∧ session.check.2.context.Clashes name ∧
    ∃ error, session.check.1 = some error ∧ error.Refuses name

/-- Some check since the last reset has refused a record of this name. -/
def Refused (ops : List Op) (name : String) : Prop :=
  ∃ before rest, ops = before ++ .check :: rest ∧ .reset ∉ rest ∧ (replay before).RefusesRecord name

theorem refused_append_singleton : Refused (ops ++ [op]) name ↔
    (op ≠ .reset ∧ Refused ops name) ∨ (op = .check ∧ (replay ops).RefusesRecord name) := by
  constructor
  · intro ⟨before, rest, hops, hreset, hrefuses⟩
    -- the check that refuses is the new operation, or it was there before
    rcases rest.eq_nil_or_concat with hrest | ⟨rest', last, hrest⟩
    · subst hrest
      obtain ⟨rfl, hop⟩ := List.append_inj' hops rfl
      cases hop
      exact .inr ⟨rfl, hrefuses⟩
    · subst hrest
      rw [List.concat_eq_append, ← List.cons_append, ← List.append_assoc] at hops
      obtain ⟨rfl, hop⟩ := List.append_inj' hops rfl
      cases hop
      simp only [List.concat_eq_append, List.mem_append, List.mem_singleton, not_or] at hreset
      exact .inl ⟨fun h => hreset.2 h.symm, before, rest', rfl, hreset.1, hrefuses⟩
  · rintro (⟨hop, before, rest, rfl, hreset, hrefuses⟩ | ⟨rfl, hrefuses⟩)
    · refine ⟨before, rest ++ [op], by simp, ?_, hrefuses⟩
      simp only [List.mem_append, List.mem_singleton, not_or]
      exact ⟨hreset, fun h => hop h.symm⟩
    · exact ⟨ops, [], rfl, by simp, hrefuses⟩

/-- In every session a record comes with the function that builds it or clashes with another
function, and it clashes exactly if some check since the last reset has refused it. -/
theorem clashes_iff_refused (ops : List Op) (name : String) :
    ((replay ops).context.isConstructor name = true →
      (replay ops).context.Constructs name ∨ (replay ops).context.Clashes name) ∧
    ((replay ops).context.Clashes name ↔ Refused ops name) := by
  induction ops using List.reverseRecOn with
  | nil =>
    refine ⟨nofun, nofun, ?_⟩
    intro ⟨before, rest, hops, _⟩
    cases before <;> cases hops
  | append_singleton ops op ih =>
    rw [refused_append_singleton, replay_append_singleton]
    obtain ⟨ihbuilt, ihclash⟩ := ih
    cases op with
    | load source =>
      rw [load_context]
      simpa using ⟨ihbuilt, ihclash⟩
    | compile =>
      rw [compile_context]
      simpa using ⟨ihbuilt, ihclash⟩
    | reset =>
      -- no record is left, and no check stands behind the reset
      refine ⟨nofun, nofun, ?_⟩
      rintro (⟨hne, _⟩ | ⟨hop, _⟩)
      · exact absurd rfl hne
      · cases hop
    | check =>
      have hgrows := (replay ops).check_grows
      show (((replay ops).check.2).context.isConstructor name = true → _) ∧ _
      refine ⟨fun hname => ?_, fun hclash => ?_, ?_⟩
      · rcases hgrows.built name hname with hold | hnew | ⟨hclash, _⟩
        · exact (ihbuilt hold).imp (·.mono hgrows.kept) (·.mono hgrows.kept)
        · exact .inl hnew
        · exact .inr hclash
      · have hname : ((replay ops).check.2).context.isConstructor name = true := by
          obtain ⟨members, τ, hr, _⟩ := hclash
          exact Option.isSome_iff_exists.mpr ⟨_, hr⟩
        -- a record from before keeps what it came with; a new one clashes only if it is refused
        cases hold : (replay ops).context.isConstructor name with
        | true =>
          rcases ihbuilt hold with hbuilt | hbefore
          · exact absurd hclash (hbuilt.mono hgrows.kept).not_clashes
          · exact .inl ⟨nofun, ihclash.mp hbefore⟩
        | false =>
          rcases hgrows.built name hname with h | hnew | ⟨_, herror⟩
          · rw [hold] at h
            cases h
          · exact absurd hclash hnew.not_clashes
          · exact .inr ⟨rfl, hold, hclash, herror⟩
      · rintro (⟨_, hrefused⟩ | ⟨_, hrefuses⟩)
        · exact (ihclash.mpr hrefused).mono hgrows.kept
        · exact hrefuses.2.1

/-- A function, and a record of the same name. -/
def clash : List Op :=
  [.load ⟨Source.defaultPath, "f:->i64\nset f=(a i64)"⟩, .check]

theorem clash_record : (replay clash).context.record? "f" = some (.record "f" [("a", .i64)]) := by
  decide +kernel

theorem clash_function : (replay clash).context.function? "f" = some (.function [] false .i64) := by
  decide +kernel

/-- The type of a refused record stays behind, so that a function passes for its constructor. -/
theorem refused_record_remains :
    (replay clash).context.isConstructor "f" = true ∧ ¬ (replay clash).context.Constructs "f" := by
  constructor
  · rw [isConstructor, clash_record]
    rfl
  · intro hconstructs
    apply hconstructs.not_clashes
    exact ⟨_, _, clash_record, clash_function, by simp⟩

end Session

end PCode
