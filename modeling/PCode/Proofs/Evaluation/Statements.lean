import PCode.Proofs.Evaluation.Expressions

namespace PCode

theorem Codegen.EmitsStmts.length_slots {L : Listing} {ret : Ty} {env env' : Env} {start f f' : Nat}
    {ss : List Stmt} {lines : List Line} {slots : List (Nat × Nat)}
    (h : EmitsStmts L ret env start f ss lines env' f' slots) :
    slots.length = Evaluation.locals ss := by
  induction ss generalizing env start f lines slots with
  | nil =>
    cases h
    rfl
  | cons s ss ih =>
    cases h with
    | cons hs hss =>
      rw [List.length_append, ih hss]
      rcases hs.bind_or with ⟨x, e, n, a, rfl, -, -, -, rfl⟩ | ⟨hne, -, rfl⟩
      · rw [Evaluation.locals, List.length_singleton, Nat.add_comm]
      · cases s with
        | bind x e n => exact absurd rfl (hne x e n)
        | _ => exact Nat.zero_add _

namespace Evaluation

open Codegen

/-- Where the code of statements in a function that returns `ret` comes to. -/
def Finished (L : Listing) (ret : Ty) (η : List Home) (f f' pc : Nat) (m : Machine) :
    Option Value → Store → Machine → Prop
  | none, σ, m' => Pushed η f f' pc m 0 [] σ m'
  | some v, σ, m' => ∃ pc', Pushed η f f' pc' m ret.size v σ m' ∧
    L.image.code[pc']? = some ⟨.ret, 0, Int64.ofInt ret.size⟩

/-- A state in which statements can start. Of the cells between the offsets, only those of the
variables that they bind are homes. -/
structure Prepared (η : List Home) (σ : Store) (bases : List Nat) (f f' next : Nat)
    (slots : List (Nat × Nat)) (pc : Nat) (m : Machine) : Prop where
  running : Running η σ bases m
  within : Within f' f slots
  homes : ∀ h ∈ blockHomes m.base next slots, h ∈ η
  free : ∀ h ∈ η, h.Avoids (m.base + f) (f' - f) ∨ h ∈ blockHomes m.base next slots
  reserved : m.base + f' ≤ m.top
  low : headerSize ≤ f
  pc : m.pc = pc

section Blocks

variable {L : Listing} {context : Context} {ret : Ty} {η : List Home} {σ σ' : Store} {ρ : Scope}
  {env env' : Env} {bases : List Nat} {f f₁ f' next pc pc' start : Nat}
  {slots others : List (Nat × Nat)} {m m₁ m' : Machine} {lines : List Line} {body : List Stmt}
  {r : Option Value}

theorem Finished.after {g g' : Nat} (h : Pushed η f f' pc m 0 [] σ m₁)
    (h' : Finished L ret η g g' pc' m₁ r σ' m') (hlow : f ≤ g) (hhigh : g' ≤ f') :
    Finished L ret η f f' pc' m r σ' m' := by
  cases r with
  | none => exact h.seq (Pushed.widen h' hlow hhigh)
  | some v =>
    obtain ⟨pc'', hp, hret⟩ := h'
    exact ⟨pc'', h.seq (hp.widen hlow hhigh), hret⟩

theorem Finished.jump {bound target : Nat} (h : Finished L ret η f f' pc m r σ m')
    (hfetch : L.image.code[pc]? = some ⟨.jmp, 0, Int64.ofInt target⟩) (htarget : target < 2 ^ 63) :
    m'.Leads L.image.code bound (Finished L ret η f f' target m r σ) := by
  cases r with
  | none => exact Pushed.jump h hfetch htarget
  | some v => exact .done h

theorem Finished.forget {new : List Home} (h : Finished L ret (new ++ η) f f' pc m r σ m')
    (hnew : ∀ home ∈ new, m.base + f ≤ home.address ∧ home.address + home.size ≤ m.base + f') :
    Finished L ret η f f' pc m r σ m' := by
  cases r with
  | none => exact Pushed.forget h hnew
  | some v =>
    obtain ⟨pc', hp, hret⟩ := h
    exact ⟨pc', hp.forget hnew, hret⟩

theorem Prepared.first (h : Prepared η σ bases f f' next (slots ++ others) pc m)
    (hslots : Within f₁ f slots) (hothers : Within f' f₁ others) :
    Prepared η σ bases f f₁ next slots pc m := by
  have hle := hothers.le
  have hhomes := h.homes
  rw [blockHomes_append] at hhomes
  refine ⟨h.running, hslots, fun home hhome => hhomes home (List.mem_append_left _ hhome), ?_, ?_,
    h.low, h.pc⟩
  · intro home hhome
    rcases h.free home hhome with hfree | hblock
    · exact .inl (hfree.part (Nat.le_refl _) (by omega))
    · rw [blockHomes_append] at hblock
      rcases List.mem_append.mp hblock with hblock | hblock
      · exact .inr hblock
      · have := mem_blockHomes hblock hothers
        have := hslots.le
        exact .inl (.inr (by omega))
  · have := h.reserved
    omega

theorem Prepared.after (h : Prepared η σ bases f f' next (slots ++ others) pc m)
    (hslots : Within f₁ f slots) (hothers : Within f' f₁ others)
    (hp : Pushed η f f₁ pc' m 0 [] σ' m') :
    Prepared η σ' bases f₁ f' (next + slots.length) others pc' m' := by
  have hle := hslots.le
  have hle' := hothers.le
  have htop : m'.top = m.top := hp.top
  have hhomes := h.homes
  rw [blockHomes_append] at hhomes
  have hlow := h.low
  refine ⟨h.running.after hlow hp.kept hp.agrees (by omega) hp.full, hothers, ?_, ?_, ?_, by omega,
    hp.pc⟩
  · rw [hp.kept.base]
    exact fun home hhome => hhomes home (List.mem_append_right _ hhome)
  · rw [hp.kept.base]
    intro home hhome
    rcases h.free home hhome with hfree | hblock
    · exact .inl (hfree.part (by omega) (by omega))
    · rw [blockHomes_append] at hblock
      rcases List.mem_append.mp hblock with hblock | hblock
      · have := mem_blockHomes hblock hslots
        exact .inl (.inl (by omega))
      · exact .inr hblock
  · rw [hp.kept.base, htop]
    exact h.reserved

theorem Prepared.ready (h : Prepared η σ bases f f' next [] pc m) : Ready η σ bases f f' pc m := by
  refine ⟨h.running, ?_, fun _ => h.reserved, h.low, h.pc⟩
  intro home hhome
  rcases h.free home hhome with hfree | hblock
  · exact hfree
  · simp [blockHomes] at hblock

theorem Prepared.ready_bind {size : Nat} (h : Prepared η σ bases f f' next [(f, size)] pc m) :
    Ready η σ bases (f + size) f' pc m := by
  refine ⟨h.running, ?_, fun _ => h.reserved, ?_, h.pc⟩
  · intro home hhome
    rcases h.free home hhome with hfree | hblock
    · exact hfree.part (by omega) (by have := h.within.2.le; omega)
    · have := mem_blockHomes hblock (show Within (f + size) f _ from ⟨Nat.le_refl _, Nat.le_refl _⟩)
      exact .inl (by omega)
  · have := h.low
    omega

theorem agrees_blockHomes {base count : Nat} {memory : Memory} (hslots : slots.length = count)
    (hwithin : Within f' f slots) :
    Agrees (blockHomes base σ.length slots) (σ ++ List.replicate count none) memory := by
  intro home hhome
  have := (mem_blockHomes hhome hwithin).1
  refine ⟨none, ?_, fun v hv => by cases hv⟩
  rw [List.getElem?_append_right this.1, List.getElem?_replicate, if_pos (by omega)]

theorem Ready.enter (hready : Ready η σ bases f f' start m) (hroom : m.base + f' ≤ m.top)
    (hscoped : Scoped L context η ρ env bases)
    (h : EmitsStmts L ret (hoist env body) start f body lines env' f' slots)
    (hholds : L.Holds start lines) :
    Scoped L context (blockHomes m.base σ.length slots ++ η) (.block body σ.length :: ρ)
        (hoist env body) bases ∧
      Prepared (blockHomes m.base σ.length slots ++ η) (σ ++ List.replicate (locals body) none)
        bases f f' σ.length slots start m := by
  have hwithin := h.within
  have hnew : ∀ home ∈ blockHomes m.base σ.length slots, σ.length ≤ home.location ∧
      m.base + f ≤ home.address ∧ home.address + home.size ≤ m.base + f' := by
    intro home hhome
    have := mem_blockHomes hhome hwithin
    exact ⟨this.1.1, this.2⟩
  have hrunning := hready.running.extend hready.low hroom hready.free
    (apart_blockHomes hwithin) hnew (agrees_blockHomes h.length_slots hwithin)
  constructor
  · obtain ⟨bs, rfl⟩ := hready.running.mem_base
    exact .block (hscoped.mono fun home hhome => List.mem_append_right _ hhome) h hholds
      fun home hhome => List.mem_append_left _ hhome
  · refine ⟨hrunning, hwithin, fun home hhome => List.mem_append_left _ hhome, ?_,
      hroom, hready.low, hready.pc⟩
    intro home hhome
    rcases List.mem_append.mp hhome with hhome | hhome
    · exact .inr hhome
    · exact .inl (hready.free home hhome)

theorem block_simulates {call : Caller} {fuel bound n : Nat} (hready : Ready η σ bases f f' start m)
    (hroom : m.base + f' ≤ m.top) (hscoped : Scoped L context η ρ env bases)
    (h : EmitsStmts L ret (hoist env body) start f body lines env' f' slots)
    (hholds : L.Holds start lines)
    (hbody : ∀ {η σ ρ next}, Scoped L context η ρ (hoist env body) bases →
      Prepared η σ bases f f' next slots start m →
      Simulates L.image.code bound n (stmts (setting L context) call fuel ρ next body σ)
        (Finished L ret η f f' pc m) m) :
    Simulates L.image.code bound n
      ((do
        let first ← reserve (locals body)
        stmts (setting L context) call fuel (.block body first :: ρ) first body) σ)
      (Finished L ret η f f' pc m) m := by
  obtain ⟨hscoped', hprepared⟩ := hready.enter hroom hscoped h hholds
  refine (hbody hscoped' hprepared).imp fun r σ' m' hfinished => hfinished.forget ?_
  exact fun home hhome => (mem_blockHomes hhome h.within).2

end Blocks

section Loops

variable {code : Array Instruction} {bound n : Nat} {test : Eval Cell} {body : Eval (Option Value)}
  {I B : Store → Machine → Prop} {Q : Option Value → Store → Machine → Prop}

/-- Each turn of a loop starts with `I` and its body with `B`; the jump back pays for the fuel of
the turn. -/
theorem iterate_simulates
    (htest : ∀ σ m, I σ m → Simulates code bound n (test σ)
      (fun c σ' m' => if c = 0 then Q none σ' m' else B σ' m') m)
    (hbody : ∀ σ m, B σ m → Simulates code bound n (body σ)
      (fun r σ' m' =>
        match r with
        | some v => Q (some v) σ' m'
        | none => ∃ m'', m'.step code = .ok m'' ∧ I σ' m'') m) :
    ∀ k ≤ n, ∀ σ m, I σ m → Simulates code bound k (iterate test body k σ) Q m := by
  intro k
  induction k with
  | zero =>
    intro _ σ m _
    exact Machine.Lasts.zero
  | succ k ih =>
    intro hk σ m hI
    rw [iterate]
    refine ((htest σ m hI).mono hk).bind fun c σ₁ m₁ h => ?_
    by_cases hzero : c = 0
    · rw [if_pos hzero] at h ⊢
      exact .done h
    · rw [if_neg hzero] at h ⊢
      refine ((hbody σ₁ m₁ h).mono hk).bind fun r σ₂ m₂ h => ?_
      cases r with
      | some v => exact .done h
      | none =>
        obtain ⟨m₃, hstep, hI⟩ := h
        exact .later hstep (ih (by omega) σ₂ m₃ hI)

end Loops

section Statements

variable {L : Listing} {context : Context} {ret : Ty} {bases : List Nat} {bound n : Nat}

theorem stmts_cons {S : Setting} {call : Caller} {fuel : Nat} {ρ : Scope} {next : Nat} {s : Stmt}
    {body : List Stmt} (h : ∀ x e n, s ≠ .bind x e n) :
    stmts S call fuel ρ next (s :: body) = (do
      match ← stmt S call fuel ρ s with
      | some v => return some v
      | none => stmts S call fuel ρ next body) := by
  cases s with
  | bind x e n => exact absurd rfl (h x e n)
  | _ => rfl

theorem stmt_of_definition {S : Setting} {call : Caller} {fuel : Nat} {ρ : Scope} {s : Stmt}
    {name : String} {params : List String} {body : Body}
    (h : s.definition? = some (name, params, body)) : stmt S call fuel ρ s = pure none := by
  cases s <;> simp only [Stmt.definition?, reduceCtorEq] at h <;> rfl

theorem Pushed.discard {η : List Home} {f f' pc size : Nat} {m m₁ : Machine} {v : Value}
    {σ σ' : Store}
    {env : Env} (h : Pushed η f f' pc m size v σ' m₁) (hrunning : Running η σ bases m)
    (hholds : L.Holds pc [env.line .ini 0 (Int64.ofInt (-size))]) :
    m₁.Leads L.image.code bound (Pushed η f f' (pc + 1) m 0 [] σ') := by
  have hfetch := Listing.fetch (holds_singleton.mp hholds)
  have htop : m₁.top = m.top + size := by rw [h.top, h.size]
  have hfull := h.full
  have hsmall : m₁.memory.capacity < 2 ^ 63 := by
    rw [h.kept.capacity]
    exact hrunning.small
  have hsize : (Int64.ofInt (-size)).toInt = -size := Cell.toInt_ofInt (by omega) (by omega)
  rw [← h.pc] at hfetch
  refine .step (Machine.step_discard hfetch hsize htop hfull) (.done ?_)
  refine h.change hrunning rfl rfl rfl (fun _ _ => rfl) (by rw [Machine.moved_pc, h.pc])
    rfl ?_ rfl rfl
  show m.top ≤ m₁.memory.capacity
  omega

mutual

theorem stmt_simulates (hfits : L.Fits context)
    (hcalls : ∀ k, n = k + 1 → FunctionsSimulated L context bound k) {env env' : Env}
    {start f f' : Nat} {s : Stmt} {lines : List Line} {slots : List (Nat × Nat)} {η : List Home}
    {σ : Store} {ρ : Scope} {m : Machine} :
    EmitsStmt L ret env start f s lines env' f' slots → slots = [] → L.Holds start lines →
    Scoped L context η ρ env bases → Ready η σ bases f f' start m → m.base + f' ≤ m.top →
    m.top + L.cost context lines + n * L.cost context L.lines ≤ bound →
    Simulates L.image.code bound n
      (stmt (setting L context) (invoke (setting L context) n) n ρ s σ)
      (Finished L ret η f f' (start + lines.length) m) m
  | @EmitsStmt.expr _ _ _ _ _ _ e _ a _ h, _, hholds, hscoped, hready, hroom, hbound => by
    rw [holds_append] at hholds
    rw [Listing.cost_append] at hbound
    rw [stmt]
    refine (expr_simulates hfits hcalls h hholds.1 hscoped hready (by omega)).bind
      fun v σ' m' hp => ?_
    by_cases hsize : e.ty.size = 0
    · rw [if_pos hsize, List.append_nil]
      rw [hsize] at hp
      obtain rfl := List.length_eq_zero_iff.mp hp.size
      exact .done hp
    · rw [if_neg hsize, List.length_append, ← Nat.add_assoc]
      rw [if_neg hsize] at hholds
      exact hp.discard hready.running hholds.2
  | @EmitsStmt.assign _ _ _ _ _ _ x xn e en _ a slot hx h he, _, hholds, hscoped, hready, hroom,
      hbound => by
    rw [holds_append] at hholds
    rw [Listing.cost_append] at hbound
    rw [stmt, expr, List.length_append, length_stores, ← Nat.add_assoc]
    obtain ⟨location, base, hvar, hlevel, hbase, hhome⟩ := hscoped.var?_some hx
    simp only [Expr.name?, Option.bind_some, hvar, require, pure_bind, bind_assoc]
    refine (expr_simulates hfits hcalls h hholds.1 hscoped hready (by omega)).bind
      fun v σ₁ m₁ hv => ?_
    rw [he] at hv
    exact (hv.assign hready hholds.2 hbase hhome).bind fun _ σ₂ m₂ hs => .done hs.1
  | .declare, _, hholds, hscoped, hready, hroom, hbound
  | .record, _, hholds, hscoped, hready, hroom, hbound
  | .comment, _, hholds, hscoped, hready, hroom, hbound => by
    rw [stmt]
    exact .done hready.nothing
  | .ret h hty, _, hholds, hscoped, hready, hroom, hbound => by
    rw [holds_append, holds_singleton] at hholds
    rw [Listing.cost_append] at hbound
    rw [stmt]
    refine (expr_simulates hfits hcalls h hholds.1 hscoped hready (by omega)).bind
      fun v σ' m' hp => .done ⟨_, ?_, Listing.fetch hholds.2⟩
    rw [← hty]
    exact hp
  | @EmitsStmt.define _ _ _ start f s name params body a hs h, _, hholds, hscoped, hready, hroom,
      hbound => by
    have hlength := hholds.le (by simp)
    have hlines := hfits.lines
    rw [List.length_cons] at hlength ⊢
    rw [stmt_of_definition hs]
    refine (hready.nothing.jump (Listing.fetch (holds_cons.mp hholds).1) (by omega)).trans
      fun m' hp => .done ?_
    rw [show start + (a.length + 1) = start + 1 + a.length by omega]
    exact hp
  | @EmitsStmt.loop _ _ _ env' start f f₁ f₂ c body _ a b slots hc hsize hb, _, hholds,
      hscoped, hready, hroom, hbound => by
    have hcroom := hc.room
    have hbroom := hb.room
    have hlength := hholds.le (by simp)
    have hlines := hfits.lines
    simp only [List.append_assoc, holds_append, holds_singleton, List.length_singleton] at hholds
    obtain ⟨hca, hjpc, hbody, hjmp⟩ := hholds
    simp only [Listing.cost_append] at hbound
    simp only [List.length_append, List.length_singleton] at hlength ⊢
    rw [stmt,
      show start + (a.length + 1 + b.length + 1) = start + a.length + 1 + b.length + 1 by omega]
    refine iterate_simulates (I := fun σ' m' => Pushed η f f₂ start m 0 [] σ' m')
      (B := fun σ' m' => Pushed η f f₂ (start + a.length + 1) m 0 [] σ' m') ?_ ?_ n
      (Nat.le_refl n) σ m hready.nothing
    · intro σ₁ m₁ hp
      have hready₁ := hready.again hp
      have htop : m₁.top = m.top := hp.top
      have hsim := expr_simulates hfits hcalls hc hca hscoped
        (hready₁.part (Nat.le_refl _) hbroom.1 hcroom.1) (by omega)
      refine hsim.bind fun v σ₂ m₂ hv => ?_
      rw [hsize] at hv
      obtain ⟨x, rfl⟩ := hv.single
      refine (hv.test hready₁.running (Listing.fetch hjpc) (by omega)).trans fun m₃ ht => .done ?_
      have hall := hp.seq (ht.widen (Nat.le_refl _) hbroom.1)
      show if x = 0 then _ else _
      by_cases hzero : x = 0
      · rw [if_pos hzero] at hall ⊢
        exact hall
      · rw [if_neg hzero] at hall ⊢
        exact hall
    · intro σ₁ m₁ hp
      have hready₁ := (hready.again hp).part hcroom.1 (Nat.le_refl _) hbroom.1
      have htop : m₁.top = m.top := hp.top
      have hbase : m₁.base = m.base := hp.kept.base
      refine (block_simulates hready₁ (by omega) hscoped hb hbody fun hscoped hprepared =>
        stmts_simulates hfits hcalls hb hbody hscoped hprepared (by omega)).imp fun r σ₂ m₂ h => ?_
      have hall := h.after hp hcroom.1 (Nat.le_refl _)
      cases r with
      | some v => exact hall
      | none =>
        exact Pushed.step_jump hall (Listing.fetch hjmp) (by omega)
  | @EmitsStmt.branch _ _ _ env₁ env₂ start f f₁ f₂ f₃ c t e _ a b d slots₁ slots₂ hc hsize ht he,
      _, hholds, hscoped, hready, hroom, hbound => by
    have hcroom := hc.room
    have htroom := ht.room
    have heroom := he.room
    have hlength := hholds.le (by simp [chooseLines])
    have hlines := hfits.lines
    simp only [List.length_append, length_chooseLines] at hlength
    rw [holds_append, holds_chooseLines] at hholds
    obtain ⟨hca, hjpc, htb, hjmp, hed⟩ := hholds
    simp only [chooseLines, Listing.cost_append] at hbound
    rw [stmt, List.length_append, length_chooseLines,
      show start + (a.length + (b.length + d.length + 2))
        = start + a.length + 1 + b.length + 1 + d.length by omega]
    refine (expr_simulates hfits hcalls hc hca hscoped
      (hready.part (Nat.le_refl _) (by omega) hcroom.1) (by omega)).bind_single hsize
      fun x σ₁ m₁ hx => ?_
    refine .after (hx.test hready.running (Listing.fetch hjpc) (by omega)) fun m₂ hp => ?_
    have htop : m₂.top = m.top := hp.top
    have hp := hp.widen (Nat.le_refl _) (Nat.le_trans htroom.1 heroom.1)
    have hbase : m₂.base = m.base := hp.kept.base
    have hready₂ := hready.again hp
    by_cases hzero : x = 0
    · rw [if_pos hzero] at hready₂ ⊢
      exact (block_simulates (hready₂.part (Nat.le_trans hcroom.1 htroom.1)
        (Nat.le_refl _) heroom.1) (by omega) hscoped he hed fun hscoped hprepared =>
          stmts_simulates hfits hcalls he hed hscoped hprepared (by omega)).imp
        fun r σ' m' h => h.after hp (by omega) (Nat.le_refl _)
    · rw [if_neg hzero] at hready₂ ⊢
      refine (block_simulates (hready₂.part hcroom.1 heroom.1 htroom.1)
        (by omega) hscoped ht htb fun hscoped hprepared =>
          stmts_simulates hfits hcalls ht htb hscoped hprepared (by omega)).before
        fun r σ' m' h => ?_
      refine (h.jump (Listing.fetch hjmp) (by omega)).trans fun m'' h => .done ?_
      exact h.after hp hcroom.1 heroom.1
  | .bind h, hslots, hholds, hscoped, hready, hroom, hbound => by
    cases hslots
  | .block h, _, hholds, hscoped, hready, hroom, hbound => by
    rw [stmt]
    exact block_simulates hready hroom hscoped h hholds fun hscoped hprepared =>
      stmts_simulates hfits hcalls h hholds hscoped hprepared hbound

theorem stmts_simulates (hfits : L.Fits context)
    (hcalls : ∀ k, n = k + 1 → FunctionsSimulated L context bound k) {env env' : Env}
    {start f f' : Nat} {ss : List Stmt} {lines : List Line} {slots : List (Nat × Nat)}
    {η : List Home} {σ : Store} {ρ : Scope} {next : Nat} {m : Machine} :
    EmitsStmts L ret env start f ss lines env' f' slots → L.Holds start lines →
    Scoped L context η ρ env bases → Prepared η σ bases f f' next slots start m →
    m.top + L.cost context lines + n * L.cost context L.lines ≤ bound →
    Simulates L.image.code bound n
      (stmts (setting L context) (invoke (setting L context) n) n ρ next ss σ)
      (Finished L ret η f f' (start + lines.length) m) m
  | .nil, hholds, hscoped, hprepared, hbound => by
    rw [stmts]
    exact .done hprepared.ready.nothing
  | @EmitsStmts.cons _ _ env env₁ _ start f f₁ f₂ s ss a b slots₁ slots₂ hs hss, hholds, hscoped,
      hprepared, hbound => by
    have hroom := hs.room
    have hwithin := hss.within
    rw [holds_append] at hholds
    rw [Listing.cost_append] at hbound
    rw [List.length_append, ← Nat.add_assoc]
    have hfirst := fun {η σ ρ m} => @stmt_simulates hfits hcalls _ _ _ _ _ _ _ _ η σ ρ m hs
    have hrest := fun {η σ ρ next m} =>
      @stmts_simulates hfits hcalls _ _ _ _ _ _ _ _ η σ ρ next m hss
    rcases hs.bind_or with ⟨x, e, note, a, rfl, he, rfl, rfl, rfl⟩ | ⟨hne, rfl, rfl⟩
    · have hslot : Within f₁ f [(f, e.ty.size)] := ⟨Nat.le_refl _, he.room.1⟩
      have hready := (hprepared.first hslot hwithin).ready_bind
      have hhome : ⟨next, m.base + f, e.ty.size⟩ ∈ η := hprepared.homes _ (by simp [blockHomes])
      rw [holds_append] at hholds
      rw [Listing.cost_append] at hbound
      obtain ⟨bs, rfl⟩ := hready.running.mem_base
      rw [stmts]
      refine (expr_simulates hfits hcalls he hholds.1.1 hscoped hready (by omega)).bind
        fun v σ₁ m₁ hv => ?_
      refine .after (hv.store hready hholds.1.2 rfl hhome) fun m₂ hs => ?_
      have htop : m₂.top = m.top := hs.top
      have hs := hs.widen (Nat.le_add_right f _) (Nat.le_refl f₁)
      rw [show start + a.length + e.ty.size = start + (a ++ env.stores 0 f e.ty.size).length by
        rw [List.length_append, length_stores, Nat.add_assoc]] at hs
      refine (hrest hholds.2 (.var hscoped hhome) (hprepared.after hslot hwithin hs) (by omega)).imp
        fun r σ' m' h => ?_
      exact h.after (hs.widen (Nat.le_refl _) hwithin.le) hroom.1 (Nat.le_refl _)
    · have hready := hprepared.first hroom.1 hwithin
      rw [stmts_cons hne]
      refine (hfirst rfl hholds.1 hscoped hready.ready hready.reserved (by omega)).bind
        fun r σ₁ m₁ h => ?_
      cases r with
      | some v =>
        obtain ⟨pc, hp, hret⟩ := h
        exact .done ⟨pc, hp.widen (Nat.le_refl _) hwithin.le, hret⟩
      | none =>
        have htop : m₁.top = m.top := h.top
        refine (hrest hholds.2 hscoped (hprepared.after hroom.1 hwithin h) (by omega)).imp
          fun r σ' m' hr => ?_
        exact hr.after (h.widen (Nat.le_refl _) hwithin.le) hroom.1 (Nat.le_refl _)

end

end Statements

end Evaluation

end PCode
