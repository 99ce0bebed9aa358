import PCode.Proofs.Codegen.Layout

namespace PCode.Codegen

/-- The functions that these lines belong to, each with those around it, have a property. -/
def Owned (P : List String → Prop) (lines : List Line) : Prop :=
  ∀ l ∈ lines, P l.owner

section Owned

variable {P : List String → Prop} {a b : List Line} {l : Line} {env : Env}

theorem owned_nil : Owned P [] := nofun

theorem owned_cons : Owned P (l :: a) ↔ P l.owner ∧ Owned P a :=
  List.forall_mem_cons

theorem owned_append : Owned P (a ++ b) ↔ Owned P a ∧ Owned P b :=
  List.forall_mem_append

theorem owned_line (h : P env.path) (op : Opcode) (level : Nat) (operand : Cell) :
    Owned P [env.line op level operand] :=
  owned_cons.mpr ⟨h, owned_nil⟩

theorem owned_loads (h : P env.path) (level offset size : Nat) :
    Owned P (env.loads level offset size) := by
  intro l hl
  obtain ⟨_, _, rfl⟩ := List.mem_map.mp hl
  exact h

theorem owned_stores (h : P env.path) (level offset size : Nat) :
    Owned P (env.stores level offset size) := by
  intro l hl
  obtain ⟨_, _, rfl⟩ := List.mem_map.mp hl
  exact h

theorem owned_chooseLines (h : P env.path) (start : Nat) (ha : Owned P a) (hb : Owned P b) :
    Owned P (chooseLines env start a b) :=
  owned_append.mpr ⟨owned_append.mpr
    ⟨owned_append.mpr ⟨owned_line h _ _ _, ha⟩, owned_line h _ _ _⟩, hb⟩

end Owned

section Expressions

variable {L : Listing} {P : List String → Prop}

mutual

theorem EmitsExpr.owned {env : Env} {start f f' : Nat} {e : Expr} {lines : List Line}
    (hP : P env.path) : EmitsExpr L env start f e lines f' → Owned P lines
  | .integer _ | .real _ | .text _ _ | .boolean _ => owned_line hP _ _ _
  | .place _ => owned_loads hP _ _ _
  | .plus h _ _ => h.owned hP
  | .unary h _ _ _ => owned_append.mpr ⟨h.owned hP, owned_line hP _ _ _⟩
  | .binary hl hr _ _ _ =>
    owned_append.mpr ⟨owned_append.mpr ⟨hl.owned hP, hr.owned hP⟩, owned_line hP _ _ _⟩
  | .spill h _ _ _ =>
    owned_append.mpr ⟨owned_append.mpr ⟨h.owned hP, owned_stores hP _ _ _⟩, owned_loads hP _ _ _⟩
  | .assign _ h _ _ =>
    owned_append.mpr ⟨owned_append.mpr ⟨h.owned hP, owned_stores hP _ _ _⟩, owned_loads hP _ _ _⟩
  | .cond hc ht he _ _ _ =>
    owned_append.mpr ⟨hc.owned hP, owned_chooseLines hP _ (ht.owned hP) (he.owned hP)⟩
  | .construct _ _ h _ => h.owned hP
  | .call _ _ h => h.owned hP

theorem EmitsCall.owned {env : Env} {start f f' : Nat} {c : String} {args : List Expr} {ret : Ty}
    {lines : List Line} (hP : P env.path) :
    EmitsCall L env start f c args ret lines f' → Owned P lines
  | .mk _ _ _ _ h =>
    owned_append.mpr ⟨owned_append.mpr ⟨owned_line hP _ _ _, h.owned hP⟩, owned_line hP _ _ _⟩

theorem EmitsExprs.owned {env : Env} {start f f' : Nat} {es : List Expr} {lines : List Line}
    (hP : P env.path) : EmitsExprs L env start f es lines f' → Owned P lines
  | .nil => owned_nil
  | .cons h hs => owned_append.mpr ⟨h.owned hP, hs.owned hP⟩

end

theorem EmitsBindings.owned {env env' : Env} {start f f' : Nat} {es : List (String × Expr)}
    {lines : List Line} (h : EmitsBindings L env start f es lines env' f') (hP : P env.path) :
    Owned P lines ∧ env'.path = env.path := by
  induction h with
  | nil => exact ⟨owned_nil, rfl⟩
  | cons he _ ih =>
    obtain ⟨hrest, hpath⟩ := ih hP
    exact ⟨owned_append.mpr ⟨owned_append.mpr ⟨he.owned hP, owned_stores hP _ _ _⟩, hrest⟩, hpath⟩

end Expressions

section Statements

variable {L : Listing} {P : List String → Prop}

mutual

theorem EmitsStmt.owned {ret : Ty} {env env' : Env} {start f f' : Nat} {s : Stmt}
    {lines : List Line} {slots : List (Nat × Nat)}
    (hinside : ∀ name path, P path → P (name :: path)) (hP : P env.path) :
    EmitsStmt L ret env start f s lines env' f' slots → Owned P lines ∧ env'.path = env.path
  | .expr _ h => by
    refine ⟨owned_append.mpr ⟨h.owned hP, ?_⟩, rfl⟩
    split
    · exact owned_nil
    · exact owned_line hP _ _ _
  | .assign _ h _ => ⟨owned_append.mpr ⟨h.owned hP, owned_stores hP _ _ _⟩, rfl⟩
  | .declare | .record | .comment => ⟨owned_nil, rfl⟩
  | .ret h _ => ⟨owned_append.mpr ⟨h.owned hP, owned_line hP _ _ _⟩, rfl⟩
  | .define _ h => ⟨owned_cons.mpr ⟨hP, EmitsFunction.owned hinside (hinside _ _ hP) h⟩, rfl⟩
  | .loop hc _ hbody => by
    have hbody := (EmitsStmts.owned hinside (by rw [hoist_path]; exact hP) hbody).1
    refine ⟨owned_append.mpr ⟨owned_append.mpr ⟨owned_append.mpr ⟨hc.owned hP, ?_⟩, hbody⟩, ?_⟩,
      rfl⟩
    · exact owned_line hP _ _ _
    · exact owned_line hP _ _ _
  | .branch hc _ ht he => by
    have ht := (EmitsStmts.owned hinside (by rw [hoist_path]; exact hP) ht).1
    have he := (EmitsStmts.owned hinside (by rw [hoist_path]; exact hP) he).1
    exact ⟨owned_append.mpr ⟨hc.owned hP, owned_chooseLines hP _ ht he⟩, rfl⟩
  | .bind h => ⟨owned_append.mpr ⟨h.owned hP, owned_stores hP _ _ _⟩, rfl⟩
  | .block h => ⟨(EmitsStmts.owned hinside (by rw [hoist_path]; exact hP) h).1, rfl⟩

theorem EmitsStmts.owned {ret : Ty} {env env' : Env} {start f f' : Nat} {ss : List Stmt}
    {lines : List Line} {slots : List (Nat × Nat)}
    (hinside : ∀ name path, P path → P (name :: path)) (hP : P env.path) :
    EmitsStmts L ret env start f ss lines env' f' slots → Owned P lines ∧ env'.path = env.path
  | .nil => ⟨owned_nil, rfl⟩
  | .cons h hs => by
    obtain ⟨hfirst, hpath⟩ := EmitsStmt.owned hinside hP h
    obtain ⟨hrest, hpath'⟩ := EmitsStmts.owned hinside (by rw [hpath]; exact hP) hs
    exact ⟨owned_append.mpr ⟨hfirst, hrest⟩, hpath'.trans hpath⟩

theorem EmitsBody.owned {ret : Ty} {env : Env} {start f f' : Nat} {body : Body} {lines : List Line}
    {closing : Bool} (hinside : ∀ name path, P path → P (name :: path)) (hP : P env.path) :
    EmitsBody L ret env start f body lines f' closing → Owned P lines
  | .value hlocals h _ => by
    obtain ⟨hfirst, hpath⟩ := hlocals.owned hP
    exact owned_append.mpr ⟨hfirst, h.owned (by rw [hpath]; exact hP)⟩
  | .block hlocals h => by
    obtain ⟨hfirst, hpath⟩ := hlocals.owned hP
    have hbody := (EmitsStmts.owned hinside (by rw [hoist_path, hpath]; exact hP) h).1
    exact owned_append.mpr ⟨hfirst, hbody⟩

theorem EmitsFunction.owned {env : Env} {start : Nat} {name : String} {params : List String}
    {body : Body} {lines : List Line} (hinside : ∀ name path, P path → P (name :: path))
    (hP : P (name :: env.path)) :
    EmitsFunction L env start name params body lines → Owned P lines
  | .mk _ _ _ h => by
    have hbody := EmitsBody.owned hinside (by rw [Env.withParams_path]; exact hP) h
    refine owned_append.mpr ⟨owned_append.mpr ⟨?_, hbody⟩, owned_cons.mpr ⟨hP, owned_nil⟩⟩
    exact owned_cons.mpr ⟨hP, owned_nil⟩

end

end Statements

section Top

variable {L : Listing} {P : List String → Prop} {env : Env} {start : Nat} {program : List Stmt}
  {lines : List Line} {name : String} {params : List String} {body : Body}

theorem EmitsTop.function_of_mem (h : EmitsTop L env start program lines)
    (hholds : L.Holds start lines) {s : Stmt} (hs : s ∈ program)
    (hdef : s.definition? = some (name, params, body)) :
    ∃ entry a, EmitsFunction L env entry name params body a ∧ L.Holds entry a := by
  induction h with
  | nil => cases hs
  | skip hsilent _ ih =>
    rcases List.mem_cons.mp hs with rfl | hs
    · rw [Stmt.definition?_of_isSilent hsilent] at hdef
      cases hdef
    · exact ih hholds hs
  | define hdef' hfunction _ ih =>
    rw [holds_append] at hholds
    rcases List.mem_cons.mp hs with rfl | hs
    · rw [hdef'] at hdef
      cases hdef
      exact ⟨_, _, hfunction, hholds.1⟩
    · exact ih hholds.2 hs

theorem EmitsTop.owned (h : EmitsTop L env start program lines)
    (hP : ∀ s ∈ program, ∀ start name params body a, s.definition? = some (name, params, body) →
      EmitsFunction L env start name params body a → Owned P a) : Owned P lines := by
  induction h with
  | nil => exact owned_nil
  | skip _ _ ih => exact ih fun s hs => hP s (List.mem_cons_of_mem _ hs)
  | define hdef hfunction _ ih =>
    exact owned_append.mpr ⟨hP _ List.mem_cons_self _ _ _ _ _ hdef hfunction,
      ih fun s hs => hP s (List.mem_cons_of_mem _ hs)⟩

theorem EmitsFunction.owned_value {locals : List (String × Expr)} {e : Expr}
    (h : EmitsFunction L env start name params (.value locals e) lines)
    (hP : P (name :: env.path)) : Owned P lines := by
  cases h with
  | mk _ _ _ hbody =>
    cases hbody with
    | value hlocals he _ =>
      obtain ⟨hfirst, hpath⟩ := hlocals.owned (P := P) (by rw [Env.withParams_path]; exact hP)
      have hlast := he.owned (P := P) (by rw [hpath, Env.withParams_path]; exact hP)
      refine owned_append.mpr ⟨owned_append.mpr ⟨?_, owned_append.mpr ⟨hfirst, hlast⟩⟩, ?_⟩
      · exact owned_cons.mpr ⟨hP, owned_nil⟩
      · exact owned_cons.mpr ⟨hP, owned_nil⟩

theorem EmitsProgram.owned {Δ : Context} {program : Program} (h : EmitsProgram L Δ program)
    (hmain : ∀ s ∈ program, ∀ params body, s.definition? = some ("main", params, body) →
      ∃ locals e, body = .value locals e) :
    Owned (fun path => ∀ j, 0 < j → path.drop j ≠ ["main"]) L.lines := by
  obtain @⟨env, functions, call, ret, henv, htop, hcall, hlines⟩ := h
  have hpath : env.path = [] := by rw [henv, hoist_path]
  have hground : ∀ j, 0 < j → env.path.drop j ≠ ["main"] := by simp [hpath]
  rw [hlines]
  refine owned_append.mpr ⟨owned_append.mpr ⟨owned_line hground _ _ _, ?_⟩, hcall.owned hground⟩
  refine htop.owned fun s hs start name params body a hdef hfunction => ?_
  by_cases hname : name = "main"
  · subst hname
    obtain ⟨locals, e, rfl⟩ := hmain s hs _ _ hdef
    refine hfunction.owned_value fun j hj => ?_
    rw [hpath, List.drop_eq_nil_of_le (by simp; omega)]
    simp
  · -- all functions inside one of the top level have it as the outermost
    have hlast : Owned (fun path => path.getLast? = some name) a := by
      refine hfunction.owned (fun inner path hinner => ?_) ?_
      · rw [List.getLast?_cons, hinner]
        rfl
      · rw [hpath]
        rfl
    intro l hl j _ hdrop
    have howner := hlast l hl
    rw [← List.take_append_drop j l.owner, hdrop, List.getLast?_append] at howner
    exact hname (by simpa using howner.symm)

end Top

end PCode.Codegen

namespace PCode.Stmt

theorem mem_definesList {s : Stmt} {program : List Stmt} {name : String} (hs : s ∈ program)
    (hname : name ∈ s.defines) : name ∈ definesList program := by
  induction program with
  | nil => cases hs
  | cons other program ih =>
    rw [definesList, List.mem_append]
    rcases List.mem_cons.mp hs with rfl | hs
    · exact .inl hname
    · exact .inr (ih hs)

theorem mem_defines_of_definition? {s : Stmt} {name : String} {params : List String} {body : Body}
    (h : s.definition? = some (name, params, body)) : name ∈ s.defines := by
  cases s <;> simp_all [definition?, defines]

theorem eq_of_definition? {program : List Stmt} (hnodup : (definesList program).Nodup) {s s' : Stmt}
    (hs : s ∈ program) (hs' : s' ∈ program) {name : String} {params params' : List String}
    {body body' : Body} (h : s.definition? = some (name, params, body))
    (h' : s'.definition? = some (name, params', body')) : s = s' := by
  have hname := mem_defines_of_definition? h
  have hname' := mem_defines_of_definition? h'
  induction program with
  | nil => cases hs
  | cons other program ih =>
    rw [definesList, List.nodup_append] at hnodup
    obtain ⟨-, hrest, hapart⟩ := hnodup
    rcases List.mem_cons.mp hs with rfl | hin <;> rcases List.mem_cons.mp hs' with rfl | hin'
    · rfl
    · exact absurd rfl (hapart name hname name (mem_definesList hin' hname'))
    · exact absurd rfl (hapart name hname' name (mem_definesList hin hname))
    · exact ih hrest hin hin'

end PCode.Stmt
