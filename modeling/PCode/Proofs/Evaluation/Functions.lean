import PCode.Proofs.Evaluation.Statements

namespace PCode.Evaluation

open Codegen

section Bindings

variable {L : Listing} {context : Context} {ret : Ty} {η : List Home} {σ σ' : Store} {ρ : Scope}
  {env env' : Env} {bases : List Nat} {bound n f f₁ f' start size offset : Nat} {m m' : Machine}
  {v : Value} {lines : List Line}

theorem Running.allocate (h : Running η σ bases m) (hlow : headerSize ≤ offset)
    (hroom : m.base + offset + size ≤ m.top)
    (hfree : ∀ home ∈ η, home.Avoids (m.base + offset) size) (hsize : v.length = size)
    (hread : m.memory.read (m.base + offset) size = v) :
    Running ([⟨σ.length, m.base + offset, size⟩] ++ η) (σ ++ [some v]) bases m := by
  refine h.extend hlow (show m.base + (offset + size) ≤ m.top by omega) ?_ ?_ ?_ ?_
  · rw [Nat.add_sub_cancel_left]
    exact hfree
  · intro home hhome other hother
    rw [List.mem_singleton] at hhome hother
    exact .inl (hhome.trans hother.symm)
  · intro home hhome
    obtain rfl := List.mem_singleton.mp hhome
    simp only
    omega
  · intro home hhome
    obtain rfl := List.mem_singleton.mp hhome
    refine ⟨some v, by simp, fun w hw => ?_⟩
    cases hw
    exact ⟨hsize, hread⟩

/-- What bindings of a function lead to: homes for their locations, between the offsets. -/
def Bound (L : Listing) (context : Context) (η : List Home) (env' : Env) (bases : List Nat)
    (f f' pc : Nat) (m : Machine) (ρ : Scope) (σ : Store) (m' : Machine) : Prop :=
  ∃ new, (∀ home ∈ new, m.base + f ≤ home.address ∧ home.address + home.size ≤ m.base + f') ∧
    Scoped L context (new ++ η) ρ env' bases ∧ Running (new ++ η) σ bases m' ∧
    Pushed η f f' pc m 0 [] σ m'

theorem bindings_simulates (hfits : L.Fits context)
    (hcalls : ∀ k, n = k + 1 → FunctionsSimulated L context bound k) {es : List (String × Expr)}
    (h : EmitsBindings L env start f es lines env' f') : ∀ {η σ ρ m}, L.Holds start lines →
    Scoped L context η ρ env bases → Ready η σ bases f f' start m → m.base + f' ≤ m.top →
    m.top + L.cost context lines + n * L.cost context L.lines ≤ bound →
    Simulates L.image.code bound n
      (bindings (setting L context) (invoke (setting L context) n) ρ es σ)
      (Bound L context η env' bases f f' (start + lines.length) m) m := by
  induction h with
  | nil =>
    intro η σ ρ m hholds hscoped hready hroom hbound
    exact .done ⟨[], by simp, hscoped, hready.running, hready.nothing⟩
  | @cons env env' start f f₁ f₂ x e es a b he hes ih =>
    intro η σ ρ m hholds hscoped hready hroom hbound
    have heroom := he.room
    have hesroom := hes.room
    have hroom' : m.base + f₁ ≤ m.top := by omega
    rw [holds_append, holds_append] at hholds
    simp only [Listing.cost_append] at hbound
    rw [bindings]
    have hready₁ := hready.part (Nat.le_refl f) hesroom.1 (by omega)
    refine (expr_simulates hfits hcalls he hholds.1.1 hscoped
      (hready₁.part (by omega) (Nat.le_refl _) heroom.1) (by omega)).bind fun v σ₁ m₁ hv => ?_
    refine .after (hv.spill hready₁ (by omega) (Nat.le_refl _) (Nat.le_refl _) heroom.1 hholds.1.2)
      fun m₂ ⟨hs, hread⟩ => ?_
    have htop : m₂.top = m.top := hs.top
    have hbase : m₂.base = m.base := hs.kept.base
    have hready₂ := hready.after hs (by omega) hesroom.1
    rw [← hbase] at hread
    have hrunning := hready₂.running.allocate hready.low (by omega) (fun home hhome => by
      rw [hbase]
      exact (hready.free home hhome).part (Nat.le_refl _) (by omega)) hv.size hread
    rw [hbase] at hrunning
    generalize hhome : Home.mk σ₁.length (m.base + f) e.ty.size = home at hrunning
    have hplace : home.address = m.base + f ∧ home.size = e.ty.size := by
      subst hhome
      exact ⟨rfl, rfl⟩
    have hready' : Ready ([home] ++ η) (σ₁ ++ [some v]) bases f₁ f₂
        (start + (a ++ env.stores 0 f e.ty.size).length) m₂ := by
      refine ⟨hrunning, ?_, fun _ => by omega, hready₂.low, ?_⟩
      · intro other hother
        rcases List.mem_append.mp hother with hother | hother
        · obtain rfl := List.mem_singleton.mp hother
          exact .inl (by omega)
        · exact hready₂.free other hother
      · rw [hs.pc, List.length_append, length_stores, Nat.add_assoc]
    have hscoped' : Scoped L context ([home] ++ η) (.var x σ₁.length :: ρ) (env.bind x f e.ty)
        bases := by
      obtain ⟨bs, rfl⟩ := hready.running.mem_base
      refine .var (hscoped.mono fun home hhome => List.mem_append_right _ hhome) ?_
      rw [hhome]
      exact List.mem_cons_self
    refine (ih hholds.2 hscoped' hready' (by omega) (by omega)).imp
      fun ρ' σ' m' ⟨new, hnew, hscoped'', hrunning', hp⟩ => ⟨new ++ [home], ?_, ?_, ?_, ?_⟩
    · intro other hother
      rcases List.mem_append.mp hother with hother | hother
      · have := hnew other hother
        omega
      · obtain rfl := List.mem_singleton.mp hother
        omega
    · rw [List.append_assoc]
      exact hscoped''
    · rw [List.append_assoc]
      exact hrunning'
    · rw [List.length_append, ← Nat.add_assoc]
      have hrest := hp.widen (show f ≤ f₁ by omega) (Nat.le_refl _)
      refine (hs.widen (Nat.le_refl _) hesroom.1).seq (hrest.forget fun other hother => ?_)
      obtain rfl := List.mem_singleton.mp hother
      omega

end Bindings

section Functions

variable {L : Listing} {context : Context} {ret : Ty} {η : List Home} {σ σ' : Store} {ρ : Scope}
  {env env' : Env} {b : Nat} {bs bases : List Nat} {bound n f f' start : Nat} {m m' : Machine}
  {lines : List Line}

theorem withBindings_simulates (hfits : L.Fits context)
    (hcalls : ∀ k, n = k + 1 → FunctionsSimulated L context bound k) {es : List (String × Expr)}
    {rest : Scope → Eval Value} {f₁ pc : Nat}
    (h : EmitsBindings L env start f es lines env' f₁) (hhigh : f₁ ≤ f')
    (hholds : L.Holds start lines) (hscoped : Scoped L context η ρ env bases)
    (hready : Ready η σ bases f f' start m) (hroom : m.base + f' ≤ m.top)
    (hbound : m.top + L.cost context lines + n * L.cost context L.lines ≤ bound)
    (hrest : ∀ {η' ρ' σ' m'}, m'.top = m.top → m'.base = m.base →
      Scoped L context η' ρ' env' bases → Ready η' σ' bases f₁ f' (start + lines.length) m' →
      Simulates L.image.code bound n (rest ρ' σ')
        (fun v => Finished L ret η' f₁ f' pc m' (some v)) m') :
    Simulates L.image.code bound n
      ((bindings (setting L context) (invoke (setting L context) n) ρ es >>= rest) σ)
      (fun v => Finished L ret η f f' pc m (some v)) m := by
  have hlow := h.room
  refine (bindings_simulates hfits hcalls h hholds hscoped
    (hready.part (Nat.le_refl _) hhigh hlow.1) (by omega) (by omega)).bind fun ρ' σ₁ m₁ hafter => ?_
  obtain ⟨new, hnew, hscoped', hrunning, hp⟩ := hafter
  have htop : m₁.top = m.top := hp.top
  have hbase : m₁.base = m.base := hp.kept.base
  have hready₁ := hready.after hp hlow.1 hhigh
  have hready' : Ready (new ++ η) σ₁ bases f₁ f' (start + lines.length) m₁ := by
    refine ⟨hrunning, ?_, hready₁.reserved, hready₁.low, hready₁.pc⟩
    intro home hhome
    rcases List.mem_append.mp hhome with hhome | hhome
    · have := hnew home hhome
      exact .inl (by omega)
    · exact hready₁.free home hhome
  refine (hrest htop hbase hscoped' hready').imp fun v σ' m' ⟨last, hv, hret⟩ => ⟨last, ?_, hret⟩
  refine (hp.widen (Nat.le_refl _) hhigh).seq ((hv.widen hlow.1 (Nat.le_refl _)).forget ?_)
  intro home hhome
  have := hnew home hhome
  omega

theorem body_simulates (hfits : L.Fits context)
    (hcalls : ∀ k, n = k + 1 → FunctionsSimulated L context bound k) {value : Body} {closing : Bool}
    (h : EmitsBody L ret env start f value lines f' closing) (hholds : L.Holds start lines)
    (hret : L.image.code[start + lines.length]? = some ⟨.ret, 0, Int64.ofInt ret.size⟩)
    (hscoped : Scoped L context η ρ env bases) (hready : Ready η σ bases f f' start m)
    (hroom : m.base + f' ≤ m.top)
    (hbound : m.top + L.cost context lines + n * L.cost context L.lines ≤ bound) :
    Simulates L.image.code bound n
      (body (setting L context) (invoke (setting L context) n) n ρ value σ)
      (fun v => Finished L ret η f f' (start + lines.length) m (some v)) m := by
  cases h with
  | @value _ _ env' _ _ f₁ _ locals e a b hb he hty =>
    rw [holds_append] at hholds
    rw [List.length_append, ← Nat.add_assoc] at hret
    simp only [Listing.cost_append] at hbound
    rw [body]
    refine withBindings_simulates hfits hcalls hb he.room.1 hholds.1 hscoped hready hroom
      (by omega) fun htop _ hscoped' hready' => ?_
    refine (expr_simulates hfits hcalls he hholds.2 hscoped' hready' (by omega)).imp
      fun v σ' m' hv => ⟨_, ?_, hret⟩
    rw [← hty]
    exact hv
  | @block _ _ env₁ _ _ _ f₁ _ locals body a b slots hb h =>
    rw [holds_append] at hholds
    simp only [Listing.cost_append] at hbound
    rw [Evaluation.body, List.length_append, ← Nat.add_assoc]
    refine withBindings_simulates hfits hcalls hb h.room.1 hholds.1 hscoped hready hroom
      (by omega) fun htop hbase hscoped' hready' => ?_
    have hsim := block_simulates hready' (by omega) hscoped' h hholds.2 fun hscoped hprepared =>
      stmts_simulates hfits hcalls h hholds.2 hscoped hprepared (by omega)
    rw [← bind_assoc]
    refine hsim.bind fun r σ' m' hfinished => ?_
    cases r with
    | none => trivial
    | some v => exact .done hfinished

theorem cellsOf_le_length {types : List Ty} {vs : List Value}
    (h : types.map Ty.size <+: vs.map List.length) : cellsOf types ≤ vs.flatten.length := by
  obtain ⟨rest, hrest⟩ := h
  rw [List.length_flatten, ← hrest, List.sum_append, cellsOf]
  exact Nat.le_add_right _ _

theorem bindAll_scoped : ∀ {types : List Ty} {params : List String} {vs : List Value} {ρ : Scope}
    {env : Env} {offset : Nat} {σ : Store} {η : List Home}, params.length = types.length →
    types.map Ty.size <+: vs.map List.length → Scoped L context η ρ env (m.base :: bs) →
    Running η σ (m.base :: bs) m → headerSize ≤ offset → m.base + offset + cellsOf types ≤ m.top →
    (∀ home ∈ η, home.address + home.size ≤ m.base + offset) →
    m.memory.read (m.base + offset) vs.flatten.length = vs.flatten →
    ∃ ρ' σ' new, bindAll ρ (params.zip vs) σ = .ok (ρ', σ') ∧
      Scoped L context (new ++ η) ρ' (env.withParams offset (params.zip types)) (m.base :: bs) ∧
      Running (new ++ η) σ' (m.base :: bs) m ∧
      ∀ home ∈ new, m.base + offset ≤ home.address ∧
        home.address + home.size ≤ m.base + offset + cellsOf types
  | [], params, vs, ρ, env, offset, σ, η, hlen, _, hscoped, hrunning, _, _, _, _ => by
    obtain rfl := List.length_eq_zero_iff.mp hlen
    exact ⟨ρ, σ, [], rfl, hscoped, hrunning, by simp⟩
  | τ :: types, params, vs, ρ, env, offset, σ, η, hlen, hsizes, hscoped, hrunning, hlow,
      hroom, hbelow, hread => by
    cases params with
    | nil => simp at hlen
    | cons x params =>
      cases vs with
      | nil => simp at hsizes
      | cons v vs =>
        simp only [List.map_cons, List.cons_prefix_cons] at hsizes
        rw [cellsOf_cons] at hroom ⊢
        rw [List.flatten_cons, List.length_append, Memory.read_add] at hread
        obtain ⟨hv, hvs⟩ := List.append_inj hread Memory.length_read
        rw [← hsizes.1, Nat.add_assoc] at hvs
        have hfree : ∀ home ∈ η, home.Avoids (m.base + offset) τ.size :=
          fun home hhome => .inl (hbelow home hhome)
        have hrunning' := hrunning.allocate hlow (by omega) hfree hsizes.1.symm
          (by rw [hsizes.1]; exact hv)
        have hscoped' : Scoped L context ([⟨σ.length, m.base + offset, τ.size⟩] ++ η)
            (.var x σ.length :: ρ) (env.bind x offset τ) (m.base :: bs) :=
          .var (hscoped.mono fun home hhome => List.mem_append_right _ hhome)
            (List.mem_append_left _ List.mem_cons_self)
        obtain ⟨ρ', σ', new, hbind, hscoped'', hrunning'', hnew⟩ :=
          bindAll_scoped (by simpa using hlen) hsizes.2 hscoped' hrunning' (by omega)
            (show m.base + (offset + τ.size) + cellsOf types ≤ m.top by omega)
            (fun home hhome => by
              rcases List.mem_append.mp hhome with hhome | hhome
              · obtain rfl := List.mem_singleton.mp hhome
                simp only
                omega
              · have := hbelow home hhome
                omega) hvs
        refine ⟨ρ', σ', new ++ [⟨σ.length, m.base + offset, τ.size⟩], hbind, ?_, ?_, ?_⟩
        · rw [List.append_assoc]
          exact hscoped''
        · rw [List.append_assoc]
          exact hrunning''
        · intro home hhome
          rcases List.mem_append.mp hhome with hhome | hhome
          · have := hnew home hhome
            omega
          · obtain rfl := List.mem_singleton.mp hhome
            simp only
            omega

theorem leads_ini {code : Array Instruction} {level count : Nat} {c : Cell}
    (hfetch : code[m.pc]? = some ⟨.ini, level, c⟩) (hc : c.toInt = count)
    (hbound : m.top + count ≤ bound) : m.Leads code bound
      (Grown (m.pc + 1) m (List.replicate count 0)) := by
  by_cases hroom : m.top + count ≤ m.memory.capacity
  · refine .step (Machine.step_reserve hfetch hc hroom) (.done ?_)
    refine ⟨rfl, rfl, by simp, rfl, by simp, by simpa using hroom, ?_, ?_⟩
    · intro a ha
      exact Memory.cell_write_of_lt ha
    · exact Memory.read_write_self
  · exact .overflow (by omega) (Machine.faults_reserve hfetch hc (by omega))

theorem Entered.leave {vs : List Value} {caller address pc pc' size : Nat} {new : List Home}
    {v w : Value} {m₁ : Machine} (h : Entered η σ bases vs caller address pc m)
    (hgrown : Grown (pc + 1) m w m₁) (hlow : headerSize ≤ f)
    (hnew : ∀ home ∈ new, m.base + headerSize ≤ home.address)
    (hp : Pushed (new ++ η) f f' pc' m₁ size v σ' m') (hsize : size < 2 ^ 63)
    (hret : L.image.code[pc']? = some ⟨.ret, 0, Int64.ofInt size⟩) :
    m'.Leads L.image.code bound (Returned η caller address m size v σ') := by
  have htop := h.top
  have htop₁ := hgrown.top
  have htop' := hp.top
  have hfull := hp.full
  have hlen := hp.size
  have hbase : m'.base = m.base := hp.kept.base.trans hgrown.base
  unfold headerSize at htop hlow hnew
  have hkept : ∀ a < m.base + 3, (∀ home ∈ η, home.Avoids a 1) →
      m'.memory.cell a = m.memory.cell a := by
    intro a ha hav
    rw [hp.kept.cells a (by omega) ?_ (.inl (by rw [hgrown.base]; omega)),
      hgrown.cells a (by omega)]
    intro home hhome
    rcases List.mem_append.mp hhome with hhome | hhome
    · have := hnew home hhome
      exact .inr (by omega)
    · exact hav home hhome
  have hheader : ∀ i < 3, m'.memory.cell (m.base + i) = m.memory.cell (m.base + i) := by
    intro i hi
    refine hkept _ (by omega) fun home hhome => .inl ?_
    have := h.below home hhome
    omega
  have hoperand : Cell.toAddress (Int64.ofInt size) = size := Cell.toAddress_ofInt (by omega)
  rw [← hp.pc] at hret
  have hstep := Machine.step_ret hret (by omega) (by omega) (by omega)
  have hcaller := h.callerSmall
  have haddress := h.addressSmall
  rw [hoperand, hbase, hheader 1 (by omega), hheader 2 (by omega), h.callerCell, h.addressCell,
    Cell.toAddress_ofAddress (by omega), Cell.toAddress_ofAddress (by omega),
    show m'.top - size = m₁.top by omega, ← hlen, hp.value] at hstep
  refine .step hstep (.done ?_)
  refine ⟨rfl, ?_, ?_, ?_, ?_, rfl, rfl, ?_, Memory.read_write_self, hlen⟩
  · exact hp.kept.next.trans hgrown.next
  · simp only [Memory.capacity_write]
    exact hp.kept.capacity.trans hgrown.capacity
  · intro a ha hav
    rw [← hkept a (by omega) hav]
    exact Memory.cell_write_of_lt ha
  · have hagrees := hp.agrees.mono fun home hhome => List.mem_append_right new hhome
    refine hagrees.congr fun home hhome i hi => Memory.cell_write_of_lt ?_
    have := h.below home hhome
    omega
  · simp only [Memory.capacity_write]
    omega

theorem Entered.running {vs : List Value} {caller address pc : Nat} {w : Value} {m₁ : Machine}
    (h : Entered η σ bases vs caller address pc m) (hgrown : Grown (pc + 1) m w m₁) :
    Running η σ (m₁.base :: bases) m₁ := by
  have htop := h.top
  have htop₁ := hgrown.top
  unfold headerSize at htop
  rw [hgrown.base]
  refine ⟨by rw [hgrown.base]; rfl, ?_, h.apart, ?_, ?_, ?_, hgrown.full, ?_, ?_⟩
  · refine h.linked.congr (by omega) fun b _ hb => hgrown.cells b ?_
    unfold headerSize at hb
    omega
  · intro home hhome b hb
    rcases List.mem_cons.mp hb with rfl | hb
    · exact .inl (h.below home hhome)
    · exact h.clear home hhome b hb
  · refine h.agrees.congr fun home hhome i hi => hgrown.cells _ ?_
    have := h.below home hhome
    omega
  · intro home hhome
    have := h.below home hhome
    omega
  · rw [hgrown.capacity]
    exact h.small
  · rw [hgrown.next]
    exact h.next

/-- Functions do what the evaluator says, with any fuel. -/
theorem functions_simulated (hfits : L.Fits context) :
    FunctionsSimulated L context bound n := by
  induction n using Nat.strongRecOn with
  | ind n ih =>
    intro η σ bases env start name lines types variadic ret vs caller address m closure hscoped
      hfunction hholds hf hsizes hentered hbound
    have hcalls : ∀ k, n = k + 1 → FunctionsSimulated L context bound k :=
      fun k hk => ih k (by omega)
    cases hfunction with
    | @mk _ _ f' _ params types' variadic' ret' value a closing hf' hlen hentry hbody =>
      rw [hscoped.context_eq, hf] at hf'
      cases hf'
      have hroom := hbody.room
      have hlength := hholds.le (by simp)
      have hlines := hfits.lines
      have hreach : headerSize + L.lines.length ≤ L.reach context := Nat.le_add_right _ _
      simp only [List.length_append, List.length_singleton] at hlength
      simp only [Listing.cost_append, Listing.cost_cons, Listing.cost_nil] at hbound
      rw [List.append_assoc, holds_append, holds_singleton, holds_append, holds_singleton] at hholds
      obtain ⟨hini, hholdsBody, hret⟩ := hholds
      have hfetch := Listing.fetch hini
      generalize hsize : f' - (headerSize + cellsOf types) = count at hfetch
      have hcount : (Int64.ofInt count).toInt = count := Cell.toInt_ofInt (by omega) (by omega)
      rw [← hentered.pc] at hfetch
      rw [invoke]
      refine .after (leads_ini hfetch hcount (by omega)) fun m₁ hgrown => ?_
      rw [hentered.pc] at hgrown
      have hrunning := hentered.running hgrown
      have hargs := cellsOf_le_length hsizes
      have htop := hentered.top
      have htop₁ := hgrown.top
      rw [List.length_replicate] at htop₁
      have hbase : m₁.base = m.base := hgrown.base
      have hvalues : m₁.memory.read (m₁.base + headerSize) vs.flatten.length = vs.flatten := by
        rw [hbase, ← hentered.args, Memory.length_read]
        exact Memory.read_congr fun i hi => hgrown.cells _ (by omega)
      have hscoped' : Scoped L context η closure.scope (env.inside name) (m₁.base :: bases) :=
        .inside hscoped
      obtain ⟨ρ', σ', new, hbind, hscoped'', hrunning', hnew⟩ := bindAll_scoped hlen hsizes hscoped'
        hrunning (Nat.le_refl _) (by omega) (fun home hhome => by
          have := hentered.below home hhome
          omega) hvalues
      simp only [bind_apply, hbind]
      have hready : Ready (new ++ η) σ' (m₁.base :: bases) (headerSize + cellsOf types) f'
          (start + 1) m₁ := by
        refine ⟨hrunning', ?_, fun _ => by omega, Nat.le_add_right _ _, hgrown.pc⟩
        intro home hhome
        rcases List.mem_append.mp hhome with hhome | hhome
        · have := hnew home hhome
          exact .inl (by omega)
        · have := hentered.below home hhome
          exact .inl (by omega)
      refine (body_simulates hfits hcalls hbody hholdsBody (Listing.fetch hret) hscoped'' hready
        (by omega) (by omega)).before fun v σ'' m' ⟨pc', hp, hret'⟩ => ?_
      exact hentered.leave hgrown (Nat.le_add_right _ _)
        (fun home hhome => by
          have := hnew home hhome
          omega) hp (Listing.Fits.result hf hfits) hret'

end Functions

end PCode.Evaluation
