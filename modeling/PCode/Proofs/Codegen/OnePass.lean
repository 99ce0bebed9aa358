import PCode.Proofs.Codegen.Generation
import PCode.Proofs.Codegen.Mirroring

namespace PCode.Codegen

section Functions

variable {s : Assembly} {env : Env} {name : String} {params : List String} {span : Span}

theorem Env.Bounded.withParams (params : List (String × Ty)) : ∀ {env : Env} (offset : Nat),
    env.Bounded → (env.withParams offset params).Bounded := by
  induction params with
  | nil => intro env offset h; exact h
  | cons param params ih => intro env offset h; exact ih _ (h.bind param.1 offset param.2)

theorem parameters_apply (hlevel : env.level = s.level) (params : List (String × Ty)) :
    Emit.parameters env.flat params s = some (.ok (env.withParams s.offset params).flat,
      { s with offset := s.offset + cellsOf (params.map Prod.snd) }) := by
  induction params generalizing s env with
  | nil => rfl
  | cons param params ih =>
    obtain ⟨x, ty⟩ := param
    let s₁ : Assembly := { s with offset := s.offset + ty.size }
    have hrest : Emit.parameters (env.bind x s.offset ty).flat params s₁ = _ := ih hlevel
    have hbind : Emit.Writes s₁ (Emit.bind env.flat x s.offset ty)
        (env.bind x s.offset ty).flat s₁ := bind_writes (s := s₁) hlevel x s.offset ty
    have hallocate : Emit.allocate ty.size s = some (.ok s.offset, s₁) := rfl
    rw [Emit.parameters, Emit.bind_apply_ok hallocate, Emit.bind_apply_ok hbind.runs, hrest]
    simp [Env.withParams, cellsOf, s₁, Nat.add_assoc]

theorem signature_cases (env : Env) (name : String) (span : Span) :
    (∃ declared, (∀ frame, signature env name span frame = .ok (declared, frame)) ∧
      ∀ s, Emit.signature env.flat name span s = some (.ok declared, s)) ∨
    ∃ e, (∀ frame, signature env name span frame = .error e) ∧
      ∀ s, Emit.signature env.flat name span s = some (.error e, s) := by
  unfold signature Emit.signature
  rw [show env.flat.context = env.context from rfl]
  cases env.context.function? name with
  | none => exact .inr ⟨_, fun _ => rfl, fun _ => rfl⟩
  | some τ =>
    cases τ with
    | function types variadic result => exact .inl ⟨_, fun _ => rfl, fun _ => rfl⟩
    | _ => exact .inr ⟨_, fun _ => rfl, fun _ => rfl⟩

theorem leave_apply (outer : Assembly) (name : String) {reserve first : Nat} {i : Instruction}
    {earlier later : List Instruction} (hcode : s.code = earlier ++ i :: later)
    (hreserve : reserve = earlier.length) (hoffset : first ≤ s.offset) (hlevel : 1 ≤ s.level) :
    ∃ s', s' = s.withCode
        (earlier ++ { i with operand := Int64.ofInt (s.offset - first : Nat) } :: later) ∧
      Emit.leave outer name reserve first s = some (.ok (), { s' with
        level := s.level - 1
        offset := outer.offset
        extents := s.extents ++ [⟨name, outer.image.here, s'.image.here⟩] }) := by
  have hpatch : Emit.Writes s (Emit.patch reserve (Int64.ofInt (s.offset - first : Nat))) () _ :=
    Emit.patch_writes hcode hreserve
  refine ⟨_, rfl, ?_⟩
  -- what follows looks at the level and the extents, which are as before
  generalize hs' : s.withCode
    (earlier ++ { i with operand := Int64.ofInt (s.offset - first : Nat) } :: later) = s'
    at hpatch ⊢
  have hextents : s'.extents = s.extents := by rw [← hs']; rfl
  rw [Emit.leave, Emit.bind_apply_ok Emit.state_writes.runs,
    Emit.bind_apply_ok (Emit.minus_writes hoffset).runs, Emit.bind_apply_ok hpatch.runs,
    Emit.bind_apply_ok Emit.state_writes.runs, ← hpatch.before.level,
    Emit.bind_apply_ok (Emit.minus_writes (by rw [hpatch.before.level]; exact hlevel)).runs,
    ← hextents]
  rfl

theorem function_apply {closing : Bool} {body : Env → Nat → Gen (List Item)} {start : Nat}
    {frame own : Frame} {types : List Ty} {result : Ty} {inner : Env}
    (hsignature : signature env name span frame = .ok ((types, result), frame))
    (hinner : inner = (env.inside name).withParams headerSize (params.zip types))
    (hown : own = { frame with
      functions := frame.functions.insert name start
      size := headerSize + cellsOf ((params.zip types).map Prod.snd) }) :
    function env start name params span closing body frame =
      match body inner (start + 1) own with
      | .ok (code, last) => .ok ([inner.item .ini 0 (last.size - own.size : Nat)] ++ code
          ++ [.line ⟨inner.path, ⟨.ret, 0, Int64.ofInt result.size⟩, closing⟩],
        { last with size := frame.size })
      | .error e => .error e := by
  have hget : ∀ frame : Frame, (get : Gen Frame) frame = .ok (frame, frame) := fun _ => rfl
  have hset : ∀ new frame : Frame, (set new : Gen PUnit) frame = .ok (.unit, new) := fun _ _ => rfl
  have hparameters : parameters { env with path := name :: env.path } (params.zip types)
      { frame with functions := frame.functions.insert name start, size := headerSize }
        = .ok (inner, own) :=
    parameters_eq_ok_iff.mpr ⟨hinner, hown⟩
  simp only [function, bind_apply, hsignature, hget, hset, hparameters, pure_apply]
  cases body inner (start + 1) own with
  | error e => rfl
  | ok answer => rfl

/-- The pass where the body of a function is written, in a frame with these cells for parameters. -/
def Assembly.inside (s : Assembly) (name : String) (cells : Nat) : Assembly :=
  Assembly.put { s with
    image := s.image.define name s.image.here
    level := s.level + 1
    offset := headerSize + cells } ⟨.ini, 0, 0⟩

section Inside

variable {cells : Nat} {s₁ : Assembly}

theorem here_inside : (s.inside name cells).image.here = s.image.here + 1 :=
  Assembly.here_put _ _

theorem leave_before (hbefore : (s.inside name cells).Before s₁) :
    ∃ s', Emit.leave s name s.image.here (headerSize + cells) s₁ = some (.ok (), s') ∧
      s.Before s' := by
  have hhere : s.image.here + 1 ≤ s₁.image.here := here_inside ▸ hbefore.here
  have hlevel : s₁.level = s.level + 1 := hbefore.level
  have hlt : s.image.here < s₁.code.length := by
    rw [s₁.length_code]
    exact hhere
  -- the reservation stands where the function starts, whatever was written behind it
  have hsplit : s₁.code = s₁.code.take s.image.here ++
      s₁.code[s.image.here] :: s₁.code.drop (s.image.here + 1) := by
    rw [← List.drop_eq_getElem_cons hlt, List.take_append_drop]
  obtain ⟨s₂, hs₂, hleave⟩ := leave_apply s name hsplit
    (List.length_take_of_le (Nat.le_of_lt hlt)).symm hbefore.offset (by omega)
  refine ⟨_, hleave, ?_, Nat.le_refl _, ?_⟩
  · show s₁.level - 1 = s.level
    omega
  · show s.image.here ≤ s₂.image.here
    rw [hs₂, Assembly.here_withCode]
    simp only [List.length_append, List.length_cons, List.length_take, List.length_drop]
    omega

theorem leave_emitted {code : List Item} {size : Cell} (reserve ret : Line)
    (h : Emitted 1 (s.inside name cells) s₁ code) (hbefore : (s.inside name cells).Before s₁)
    (hreserve : reserve.instruction
      = ⟨.ini, 0, Int64.ofInt (s₁.offset - (headerSize + cells) : Nat)⟩)
    (hret : ret.instruction = ⟨.ret, 0, size⟩) :
    ∃ s', Emit.leave s name s.image.here (headerSize + cells) (s₁.put ⟨.ret, 0, size⟩)
        = some (.ok (), s') ∧
      s'.frame = { s₁.frame with size := s.offset } ∧ s.Before s' ∧
      Emitted 0 s s' ([.line reserve] ++ code ++ [.line ret]) := by
  have hlevel : s₁.level = s.level + 1 := hbefore.level
  have hcode : (s₁.put ⟨.ret, 0, size⟩).code
      = s.code ++ ⟨.ini, 0, 0⟩ :: (code.map Item.draft ++ [⟨.ret, 0, size⟩]) := by
    rw [Assembly.code_put, h.code, Assembly.inside, Assembly.code_put]
    simp [Assembly.code, Image.define]
  obtain ⟨s₂, hs₂, hleave⟩ := leave_apply s name hcode s.length_code.symm hbefore.offset
    (show 1 ≤ s₁.level by omega)
  have hend : s₂.image.here = s.image.here + code.length + 2 := by
    rw [hs₂, Assembly.here_withCode]
    simp only [List.length_append, List.length_cons, List.length_map, List.length_nil,
      s.length_code]
    omega
  refine ⟨_, hleave, ?_, ⟨?_, Nat.le_refl _, ?_⟩, ?_, ?_⟩
  · rw [hs₂]
    rfl
  · show s₁.level - 1 = s.level
    omega
  · show s.image.here ≤ s₂.image.here
    omega
  · show s₂.code = _
    rw [hs₂, Assembly.code_withCode]
    simp only [List.map_append, List.map_cons, List.map_nil, Item.draft, hreserve, hret]
    rw [List.append_assoc]
    rfl
  · have hnoted := h.noted
    rw [here_inside] at hnoted
    have hfunction : Noted 0 s.image.here ([.line reserve] ++ code ++ [.line ret]) s.notes _ :=
      hnoted.function (by rw [hreserve]) (by rw [hret])
    rw [← hend] at hfunction
    rw [hs₂] at hfunction ⊢
    exact hfunction

/-- The pass over a function comes to its body, and leaves the function whatever the body gives. -/
theorem function_runs {body : Env → Emit Unit} {types : List Ty} {result : Ty} {s₂ : Assembly}
    {written : Except CodegenError Unit} (hlevel : env.level = s.level)
    (hsignature : Emit.signature env.flat name span s = some (.ok (types, result), s))
    (hcells : cells = cellsOf ((params.zip types).map Prod.snd))
    (hbody : (do
      body ((env.inside name).withParams headerSize (params.zip types)).flat
      Emit.put .ret 0 (Int64.ofInt result.size)) (s.inside name cells) = some (written, s₁))
    (hleave : Emit.leave s name s.image.here (headerSize + cells) s₁ = some (.ok (), s₂)) :
    Emit.function env.flat name params span body s = some (written, s₂) := by
  let entered : Assembly := { s with
    image := s.image.define name s.image.here
    level := s.level + 1
    offset := headerSize }
  have hentered : (env.inside name).level = entered.level := congrArg (· + 1) hlevel
  have henter : Emit.enter name s = some (.ok (), entered) := rfl
  have hparameters : Emit.parameters env.flat (params.zip types) entered =
      some (.ok ((env.inside name).withParams headerSize (params.zip types)).flat,
        { entered with offset := headerSize + cells }) := by
    rw [hcells]
    exact parameters_apply hentered (params.zip types)
  -- an error of the body waits until the function is left
  have hattempt : Emit.attempt (do
      body ((env.inside name).withParams headerSize (params.zip types)).flat
      Emit.put .ret 0 (Int64.ofInt result.size)) (s.inside name cells)
        = some (.ok written, s₁) := by
    rw [Emit.attempt, hbody]
    rfl
  rw [Emit.function, Emit.bind_apply_ok hsignature]
  show (Emit.state >>= _) s = _
  rw [Emit.bind_apply_ok Emit.state_writes.runs, Emit.bind_apply_ok henter,
    Emit.bind_apply_ok hparameters, Emit.bind_apply_ok Emit.state_writes.runs,
    Emit.bind_apply_ok Emit.emit_writes.runs]
  show (Emit.attempt _ >>= _) (s.inside name cells) = _
  rw [Emit.bind_apply_ok hattempt]
  show (Emit.leave s name s.image.here (headerSize + cells) >>= _) s₁ = _
  rw [Emit.bind_apply_ok hleave]
  rfl

end Inside

theorem function_mirrors {closing : Bool} {body : Env → Nat → Gen (List Item)}
    {body' : Env → Emit Unit} (henv : env.Bounded) (hlevel : env.level = s.level)
    (hbody : ∀ {inner : Env} {s : Assembly}, inner.Bounded → inner.level = s.level →
      Mirrors s (body inner s.image.here) (body' inner.flat) fun code _ s' => Emitted 1 s s' code) :
    Mirrors s (function env s.image.here name params span closing body)
      (Emit.function env.flat name params span body') fun items _ s' => Emitted 0 s s' items := by
  rcases signature_cases env name span with ⟨⟨types, result⟩, hgen, hemit⟩ | ⟨e, hgen, hemit⟩
  · let inner := (env.inside name).withParams headerSize (params.zip types)
    let cells := cellsOf ((params.zip types).map Prod.snd)
    have hinner : inner.level = (s.inside name cells).level := by
      rw [Env.level, Env.withParams_path]
      exact congrArg (· + 1) hlevel
    have hown : (s.inside name cells).frame = { s.frame with
      functions := s.frame.functions.insert name s.image.here
      size := headerSize + cells } := rfl
    have hbody := hbody (Env.Bounded.withParams _ _ (henv.inside name)) hinner
    rw [here_inside] at hbody
    cases hbody with
    | error hbodyGen hbodyEmit hbefore =>
      obtain ⟨s', hleave, hbefore'⟩ := leave_before hbefore
      have hruns := function_runs hlevel (hemit s) rfl (Emit.bind_apply_error hbodyEmit) hleave
      apply Mirrors.error _ hruns hbefore'
      rw [function_apply (hgen s.frame) rfl hown, hbodyGen]
    | @ok code _ s₁ hbodyGen hbodyEmit hbefore hcode =>
      have hwritten : (do
          body' inner.flat
          Emit.put .ret 0 (Int64.ofInt result.size)) (s.inside name cells)
            = some (.ok (), s₁.put ⟨.ret, 0, Int64.ofInt result.size⟩) :=
        Emit.bind_apply_ok hbodyEmit
      obtain ⟨s', hleave, hframe, hbefore', hemitted⟩ := leave_emitted
        ⟨inner.path, _, false⟩ ⟨inner.path, _, closing⟩ hcode hbefore rfl rfl
      have hruns := function_runs hlevel (hemit s) rfl hwritten hleave
      apply Mirrors.ok _ hruns hbefore' hemitted
      rw [function_apply (hgen s.frame) rfl hown, hbodyGen, hframe]
      rfl
  · apply Mirrors.error _ (Emit.bind_apply_error (hemit s)) (.refl s)
    rw [function, bind_apply, hgen]

end Functions

section Statements

variable {s : Assembly} {env : Env}

/-- A step that writes items and gives the scope behind them. -/
structure Continues (env : Env) (s : Assembly) (answer : List Item × Env) (env' : Env)
    (s' : Assembly) : Prop where
  emitted : Emitted 1 s s' answer.1
  flat : env' = answer.2.flat
  bounded : answer.2.Bounded
  level : answer.2.level = env.level

theorem binding_mirrors {x : String} {value : Expr} (henv : env.Bounded)
    (hlevel : env.level = s.level) :
    Mirrors s (binding env s.image.here x value) (Emit.binding env.flat x value)
      (Continues env s) := by
  unfold binding Emit.binding
  apply allocate_mirrors.bind
  rintro _ offset s₁ ⟨rfl, hquiet⟩ hbefore
  have hlevel₁ := hlevel.trans hbefore.level.symm
  rw [show s.image.here = s₁.image.here from hquiet.here.symm]
  apply (expr_mirrors henv value hlevel₁).bind
  intro code _ s₂ hcode hbefore₂
  obtain ⟨s₃, hstores, hstored⟩ := Emit.storeCells_writes (s := s₂) 1 env 0 offset value.ty.size
  have hlevel₃ : env.level = s₃.level :=
    (hlevel₁.trans hbefore₂.level.symm).trans hstores.before.level.symm
  apply Mirrors.pure (hstores.bind (bind_writes hlevel₃ x offset value.ty))
  exact ⟨(hquiet.append hcode).append hstored, rfl, henv.bind x offset value.ty, rfl⟩

theorem bindings_mirrors : ∀ (locals : List (String × Expr)) {env : Env} {s : Assembly},
    env.Bounded → env.level = s.level →
    Mirrors s (bindings env s.image.here locals) (Emit.bindings env.flat locals) (Continues env s)
  | [], env, s, henv, _ => by
    unfold bindings Emit.bindings
    exact .pure (Emit.pure_writes _) ⟨.nil s, rfl, henv, rfl⟩
  | (x, value) :: locals, env, s, henv, hlevel => by
    unfold bindings Emit.bindings
    apply (binding_mirrors henv hlevel).bind
    rintro ⟨code, env₁⟩ _ s₁ ⟨hcode, rfl, henv₁, hlevel₁⟩ hbefore
    dsimp only at hcode henv₁ hlevel₁ ⊢
    rw [← hcode.here]
    apply (bindings_mirrors locals henv₁ (hlevel₁.trans (hlevel.trans hbefore.level.symm))).map
    rintro ⟨rest, env₂⟩ env₂' s₂ ⟨hrest, hflat, henv₂, hlevel₂⟩ _
    exact ⟨hcode.append hrest, hflat, henv₂, hlevel₂.trans hlevel₁⟩

theorem effect_mirrors (henv : env.Bounded) (hlevel : env.level = s.level) (e : Expr) :
    Mirrors s (effect env s.image.here e) (Emit.effect env.flat e) fun code _ s' =>
      Emitted 1 s s' code := by
  have hvalue : Mirrors s
      (do
        let code ← expr env s.image.here e
        return if e.ty.size = 0 then code else code ++ [env.item .ini 0 (-e.ty.size)])
      (do
        Emit.expr env.flat e
        if e.ty.size = 0 then pure () else Emit.put .ini 0 (Int64.ofInt (-e.ty.size)))
      fun code _ s' => Emitted 1 s s' code := by
    apply (expr_mirrors henv e hlevel).bind
    intro code _ s₁ hcode _
    by_cases hsize : e.ty.size = 0
    · rw [if_pos hsize, if_pos hsize]
      exact .pure (Emit.pure_writes ()) hcode
    · rw [if_neg hsize, if_neg hsize]
      exact .pure Emit.put_writes (hcode.append (.item (by simp)))
  cases e with
  | assign target value note =>
    unfold effect Emit.effect
    apply (assigned_mirrors henv).bind
    rintro _ slot _ ⟨rfl, rfl, hslot, -⟩ -
    apply (expr_mirrors henv value hlevel).bind
    intro code _ s₁ hcode hbefore
    obtain ⟨s₂, hstores, hstored⟩ := Emit.store_writes (hlevel.trans hbefore.level.symm) hslot
    exact .pure hstores (hcode.append hstored)
  | _ => exact hvalue

theorem withBindings_mirrors {locals : List (String × Expr)} {body : Env → Nat → Gen (List Item)}
    {body' : Env → Emit Unit} (henv : env.Bounded) (hlevel : env.level = s.level)
    (hbody : ∀ {env : Env} {s : Assembly}, env.Bounded → env.level = s.level →
      Mirrors s (body env s.image.here) (body' env.flat) fun items _ s' => Emitted 1 s s' items) :
    Mirrors s (withBindings env s.image.here locals body) (Emit.withBindings env.flat locals body')
      fun items _ s' => Emitted 1 s s' items := by
  unfold withBindings Emit.withBindings
  apply (bindings_mirrors locals henv hlevel).bind
  rintro ⟨code, env₁⟩ _ s₁ ⟨hcode, rfl, henv₁, hlevel₁⟩ hbefore
  dsimp only at hcode henv₁ hlevel₁ ⊢
  rw [← hcode.here]
  apply (hbody henv₁ (hlevel₁.trans (hlevel.trans hbefore.level.symm))).map
  intro rest _ s₂ hrest _
  exact hcode.append hrest

theorem equation_mirrors {name : String} {params : List String} {locals : List (String × Expr)}
    {value : Expr} {span : Span} (henv : env.Bounded) (hlevel : env.level = s.level) :
    Mirrors s (equation env s.image.here name params locals value span)
      (Emit.equation env.flat name params locals value span) fun items _ s' =>
        Emitted 0 s s' items := by
  unfold equation Emit.equation
  apply function_mirrors henv hlevel
  intro inner s₁ hinner hlevel₁
  exact withBindings_mirrors hinner hlevel₁ fun henv₁ hlevel₂ => expr_mirrors henv₁ value hlevel₂

theorem skipped_mirrors {β : Type} {A : Nat → Gen (List Item)} {a : Emit Unit}
    {Q : β → Unit → Assembly → Prop} (f : List Item → β)
    (hA : ∀ {s : Assembly}, env.level = s.level →
      Mirrors s (A s.image.here) a fun items _ s' => Emitted 0 s s' items)
    (hlevel : env.level = s.level) (hQ : ∀ code s', Emitted 1 s s' code → Q (f code) () s') :
    Mirrors s
      (do
        let code ← A (s.image.here + 1)
        return f (skipped env s.image.here code))
      (Emit.skipped a) Q := by
  have hstart : (s.put ⟨.jmp, 0, 0⟩).image.here = s.image.here + 1 := s.here_put _
  have hA := hA (s := s.put ⟨.jmp, 0, 0⟩) hlevel
  rw [hstart] at hA
  unfold Emit.skipped
  apply Mirrors.step Emit.emit_writes
  apply hA.bind
  intro items _ s₁ hitems _
  have hwritten : s₁.code = s.code ++ ⟨.jmp, 0, 0⟩ :: items.map Item.draft := by
    simp [hitems.code]
  apply Mirrors.pure (Emit.patchHere_writes hwritten s.length_code.symm)
  apply hQ
  have hnoted := hitems.noted
  rw [hstart] at hnoted
  refine ⟨?_, hnoted.skipped⟩
  rw [Assembly.code_withCode, hitems.here, hstart]
  rfl

theorem scoped_mirrors {body : List Stmt} (henv : env.Bounded) (hlevel : env.level = s.level)
    (hbody : ∀ {env : Env}, env.Bounded → env.level = s.level →
      Mirrors s (stmts env s.image.here body) (Emit.stmts env.flat body) (Continues env s)) :
    Mirrors s (stmts (hoist env body) s.image.here body)
      (do let _ ← Emit.stmts (← Emit.hoist env.flat body) body) fun answer _ s' =>
        Emitted 1 s s' answer.1 := by
  apply Mirrors.step (hoist_writes hlevel body)
  apply Mirrors.returns
  have hstmts := hbody (henv.hoist body) (hoist_level.trans hlevel)
  exact hstmts.weaken fun _ _ _ h => h.emitted

mutual

theorem stmt_mirrors : ∀ (a : Stmt) {env : Env} {s : Assembly}, env.Bounded → env.level = s.level →
    Mirrors s (stmt env s.image.here a) (Emit.stmt env.flat a) (Continues env s)
  | .expr value note, env, s, henv, hlevel => by
    simp only [stmt, Emit.stmt]
    apply (effect_mirrors henv hlevel value).bind
    intro code _ s₁ hcode _
    exact .pure (Emit.pure_writes _) ⟨hcode, rfl, henv, rfl⟩
  | .declare .., env, s, henv, hlevel => by
    simp only [stmt, Emit.stmt]
    exact .pure (Emit.pure_writes _) ⟨.nil s, rfl, henv, rfl⟩
  | .record .., env, s, henv, hlevel => by
    simp only [stmt, Emit.stmt]
    exact .pure (Emit.pure_writes _) ⟨.nil s, rfl, henv, rfl⟩
  | .comment .., env, s, henv, hlevel => by
    simp only [stmt, Emit.stmt]
    exact .pure (Emit.pure_writes _) ⟨.nil s, rfl, henv, rfl⟩
  | .ret value note, env, s, henv, hlevel => by
    simp only [stmt, Emit.stmt]
    apply (expr_mirrors henv value hlevel).bind
    intro code _ s₁ hcode _
    apply Mirrors.step Emit.put_writes
    exact .pure (Emit.pure_writes _) ⟨hcode.append (.item (by simp)), rfl, henv, rfl⟩
  | .define name params locals value note, env, s, henv, hlevel => by
    simp only [stmt, Emit.stmt]
    apply Mirrors.returns
    apply skipped_mirrors (fun code => (code, env))
      (A := fun start => equation env start name params locals value note.span)
      (fun h => equation_mirrors henv h) hlevel
    intro code s' hcode
    exact ⟨hcode, rfl, henv, rfl⟩
  | .defineBlock name params locals body note, env, s, henv, hlevel => by
    simp only [stmt, Emit.stmt]
    apply Mirrors.returns
    apply skipped_mirrors (fun code => (code, env))
      (A := fun start => function env start name params note.span true fun env start =>
        withBindings env start locals fun env start =>
          stmts (hoist env body) start body >>= fun answer => pure answer.1) _ hlevel
    · intro code s' hcode
      exact ⟨hcode, rfl, henv, rfl⟩
    · intro s₁ hlevel₁
      apply function_mirrors henv hlevel₁
      intro inner s₂ hinner hlevel₂
      apply withBindings_mirrors hinner hlevel₂
      intro env₁ s₃ henv₁ hlevel₃
      apply (scoped_mirrors henv₁ hlevel₃ (stmts_mirrors body)).map
      intro answer _ s₄ hcode _
      exact hcode
  | .loop test body note, env, s, henv, hlevel => by
    simp only [stmt, Emit.stmt]
    apply Mirrors.step Emit.state_writes
    apply (expr_mirrors henv test hlevel).bind
    intro testCode _ s₁ htest hbefore
    have hlevel₁ := hlevel.trans hbefore.level.symm
    let s₂ := s₁.put ⟨.jpc, 0, 0⟩
    have hstart : s₂.image.here = s.image.here + testCode.length + 1 := by
      rw [s₁.here_put, htest.here]
    have hbody := stmts_mirrors body (s := s₂) (henv.hoist body) (hoist_level.trans hlevel₁)
    rw [hstart] at hbody
    apply Mirrors.step Emit.emit_writes
    apply Mirrors.step (hoist_writes (s := s₂) hlevel₁ body)
    apply hbody.bind
    rintro ⟨bodyCode, _⟩ _ s₃ ⟨hcode, -, -, -⟩ _
    dsimp only at hcode ⊢
    have hwritten : (s₃.put ⟨.jmp, 0, Int64.ofInt s.image.here⟩).code = s₁.code ++ ⟨.jpc, 0, 0⟩
        :: (bodyCode.map Item.draft ++ [⟨.jmp, 0, Int64.ofInt s.image.here⟩]) := by
      simp [hcode.code, s₂]
    -- the jump out of the loop leads behind the jump back
    apply Mirrors.step Emit.put_writes
    apply Mirrors.step (Emit.patchHere_writes hwritten s₁.length_code.symm)
    apply Mirrors.pure (Emit.pure_writes _)
    refine ⟨⟨?_, ?_⟩, rfl, henv, rfl⟩
    · rw [Assembly.code_withCode, Assembly.here_put, hcode.here, hstart, htest.code]
      simp [Item.draft, Env.item, Env.emit]
    · have hnoted := hcode.noted
      rw [hstart] at hnoted
      exact htest.noted.loop hnoted
  | .branch test thenBody elseBody note, env, s, henv, hlevel => by
    simp only [stmt, Emit.stmt]
    apply (expr_mirrors henv test hlevel).bind
    intro testCode _ s₁ htest hbefore
    rw [← htest.here]
    apply Mirrors.returns
    apply choose_mirrors Prod.fst (fun code => (testCode ++ code, env))
      (A := fun start => stmts (hoist env thenBody) start thenBody)
      (B := fun start => stmts (hoist env elseBody) start elseBody)
      (fun h => scoped_mirrors henv h (stmts_mirrors thenBody))
      (fun h => scoped_mirrors henv h (stmts_mirrors elseBody)) (hlevel.trans hbefore.level.symm)
    intro code s' hcode
    exact ⟨htest.append hcode, rfl, henv, rfl⟩
  | .bind x value note, env, s, henv, hlevel => by
    simp only [stmt, Emit.stmt]
    exact binding_mirrors henv hlevel
  | .block body note, env, s, henv, hlevel => by
    simp only [stmt, Emit.stmt]
    apply Mirrors.step (hoist_writes hlevel body)
    apply (stmts_mirrors body (henv.hoist body) (hoist_level.trans hlevel)).bind
    rintro ⟨code, _⟩ _ s₁ ⟨hcode, -, -, -⟩ _
    exact .pure (Emit.pure_writes _) ⟨hcode, rfl, henv, rfl⟩

theorem stmts_mirrors : ∀ (body : List Stmt) {env : Env} {s : Assembly}, env.Bounded →
    env.level = s.level →
    Mirrors s (stmts env s.image.here body) (Emit.stmts env.flat body) (Continues env s)
  | [], env, s, henv, hlevel => by
    simp only [stmts, Emit.stmts]
    exact .pure (Emit.pure_writes _) ⟨.nil s, rfl, henv, rfl⟩
  | a :: body, env, s, henv, hlevel => by
    simp only [stmts, Emit.stmts]
    apply (stmt_mirrors a henv hlevel).bind
    rintro ⟨code, env₁⟩ _ s₁ ⟨hcode, rfl, henv₁, hlevel₁⟩ hbefore
    dsimp only at hcode henv₁ hlevel₁ ⊢
    rw [← hcode.here]
    apply (stmts_mirrors body henv₁ (hlevel₁.trans (hlevel.trans hbefore.level.symm))).map
    rintro ⟨rest, env₂⟩ env₂' s₂ ⟨hrest, hflat, henv₂, hlevel₂⟩ _
    exact ⟨hcode.append hrest, hflat, henv₂, hlevel₂.trans hlevel₁⟩

end

end Statements

section Programs

variable {s : Assembly} {env : Env}

theorem topLevel_mirrors (henv : env.Bounded) : ∀ (program : List Stmt) {s : Assembly},
    env.level = s.level →
    Mirrors s (topLevel env s.image.here program) (Emit.topLevel env.flat program)
      fun items _ s' => Emitted 0 s s' items
  | [], s, hlevel => by
    unfold topLevel Emit.topLevel
    exact .pure (Emit.pure_writes ()) (.nil s)
  | a :: program, s, hlevel => by
    have hrest : ∀ code s₁, Emitted 0 s s₁ code → s.Before s₁ → Mirrors s₁
        (do
          let rest ← topLevel env (s.image.here + code.length) program
          return code ++ rest)
        (Emit.topLevel env.flat program) fun items _ s' => Emitted 0 s s' items := by
      intro code s₁ hcode hbefore
      rw [← hcode.here]
      apply (topLevel_mirrors henv program (hlevel.trans hbefore.level.symm)).map
      intro rest _ s₂ hrest _
      exact hcode.append hrest
    unfold topLevel Emit.topLevel
    cases a with
    | define name params locals value note =>
      apply (equation_mirrors henv hlevel).bind
      intro code _ s₁ hcode hbefore
      exact hrest code s₁ hcode hbefore
    | defineBlock name params locals body note =>
      have hfunction : Mirrors s
          (function env s.image.here name params note.span true fun env start =>
            withBindings env start locals fun env start => block env start body)
          (Emit.function env.flat name params note.span fun env =>
            Emit.withBindings env locals fun env => do
              let _ ← Emit.stmts (← Emit.hoist env body) body)
          fun items _ s' => Emitted 0 s s' items := by
        apply function_mirrors henv hlevel
        intro inner s₁ hinner hlevel₁
        apply withBindings_mirrors hinner hlevel₁
        intro env₁ s₂ henv₁ hlevel₂
        apply (scoped_mirrors henv₁ hlevel₂ (stmts_mirrors body)).map
        intro answer _ s₃ hcode _
        exact hcode
      apply hfunction.bind
      intro code _ s₁ hcode hbefore
      exact hrest code s₁ hcode hbefore
    | declare | record | comment => exact hrest [] s (.nil s) (.refl s)
    | _ => exact .error rfl rfl (.refl s)

theorem link_line_cons (fs : Table Nat) (l : Line) (items : List Item) :
    link fs (.line l :: items) = (link fs items).map (l :: ·) := by
  rw [link]
  cases link fs items with
  | error e => rfl
  | ok lines => rfl

theorem link_forward_cons {fs : Table Nat} {name : String} {entry : Nat}
    (h : fs.get? name = some entry) (owner : List String) (level : Nat) (span : Span)
    (items : List Item) :
    link fs (.forward owner level name span :: items) =
      (link fs items).map ({ owner, instruction := ⟨.cal, level, Int64.ofInt entry⟩ } :: ·) := by
  rw [link, h]
  cases link fs items with
  | error e => rfl
  | ok lines => rfl

theorem backpatch_apply (items : List Item) {s : Assembly} (earlier : List Instruction)
    (hcode : s.code = earlier ++ items.map Item.draft) :
    (∃ lines, link s.image.functions items = .ok lines ∧
      Emit.backpatch (opened earlier.length items) s
        = some (.ok (), s.withCode (earlier ++ lines.map Line.instruction))) ∨
    ∃ e s', link s.image.functions items = .error e ∧
      Emit.backpatch (opened earlier.length items) s = some (.error e, s') := by
  -- the instructions in `earlier` are final; each item adds one to them
  induction items generalizing s earlier with
  | nil =>
    have hsame : s.withCode s.code = s := by simp [Assembly.withCode, Assembly.code]
    refine .inl ⟨[], rfl, ?_⟩
    rw [List.map_nil, ← List.map_nil (f := Item.draft), ← hcode, hsame]
    rfl
  | cons item items ih =>
    cases item with
    | line l =>
      have hnext := ih (s := s) (earlier ++ [l.instruction]) (by simp [hcode, Item.draft])
      rw [List.length_append, List.length_singleton] at hnext
      rw [link_line_cons, opened]
      rcases hnext with ⟨lines, hlink, hruns⟩ | ⟨e, s', hlink, hruns⟩
      · rw [hlink, hruns]
        exact .inl ⟨l :: lines, rfl, by simp⟩
      · rw [hlink]
        exact .inr ⟨e, s', rfl, hruns⟩
    | forward owner level name span =>
      cases hentry : s.image.functions.get? name with
      | none =>
        refine .inr ⟨⟨.neverDefined name, some span⟩, s, ?_, ?_⟩
        · rw [link, hentry]
        · rw [opened, Emit.backpatch, Emit.bind_apply_ok Emit.state_writes.runs, Image.entry?,
            hentry]
          rfl
      | some entry =>
        have hpatch : Emit.Writes s (Emit.patch earlier.length (Int64.ofInt entry)) () _ :=
          Emit.patch_writes hcode rfl
        let s₁ := s.withCode (earlier ++ ⟨.cal, level, Int64.ofInt entry⟩ :: items.map Item.draft)
        have hsite :
            Emit.backpatch (opened earlier.length (.forward owner level name span :: items)) s
              = Emit.backpatch (opened (earlier.length + 1) items) s₁ := by
          rw [opened, Emit.backpatch, Emit.bind_apply_ok Emit.state_writes.runs, Image.entry?,
            hentry]
          exact Emit.bind_apply_ok hpatch.runs
        have hnext := ih (s := s₁) (earlier ++ [⟨.cal, level, Int64.ofInt entry⟩]) (by simp [s₁])
        rw [List.length_append, List.length_singleton, show s₁.image.functions = s.image.functions
          from rfl] at hnext
        rw [link_forward_cons hentry, hsite]
        rcases hnext with ⟨lines, hlink, hruns⟩ | ⟨e, s', hlink, hruns⟩
        · rw [hlink, hruns, List.append_assoc]
          exact .inl ⟨_, rfl, rfl⟩
        · rw [hlink]
          exact .inr ⟨e, s', rfl, hruns⟩

end Programs

end PCode.Codegen
