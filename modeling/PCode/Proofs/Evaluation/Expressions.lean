import PCode.Proofs.Codegen.Cost
import PCode.Proofs.Evaluation.Simulates

namespace PCode.Evaluation

open Codegen

/-- What evaluation knows of a program that is compiled to this listing. -/
def setting (L : Listing) (context : Context) : Setting :=
  ⟨context, L.strings⟩

/-- The state at the entry of a function that was called with these arguments. The caller has its
frame at `caller` and goes on at `address`. -/
structure Entered (η : List Home) (σ : Store) (bases : List Nat) (vs : List Value)
    (caller address pc : Nat) (m : Machine) : Prop where
  pc : m.pc = pc
  linked : Linked m.memory m.top (m.base :: bases)
  callerCell : m.memory.cell (m.base + 1) = .ofAddress caller
  callerSmall : caller < 2 ^ 63
  addressCell : m.memory.cell (m.base + 2) = .ofAddress address
  addressSmall : address < 2 ^ 63
  top : m.top = m.base + headerSize + vs.flatten.length
  args : m.memory.read (m.base + headerSize) vs.flatten.length = vs.flatten
  apart : Apart η
  clear : ∀ h ∈ η, ∀ b ∈ bases, h.Avoids b headerSize
  agrees : Agrees η σ m.memory
  below : ∀ h ∈ η, h.address + h.size ≤ m.base
  full : m.top ≤ m.memory.capacity
  small : m.memory.capacity < 2 ^ 63
  next : m.next < 2 ^ 63

/-- A function has returned a value of this size; `m` is the state at its entry. -/
structure Returned (η : List Home) (caller address : Nat) (m : Machine) (size : Nat) (v : Value)
    (σ : Store) (m' : Machine) : Prop where
  base : m'.base = caller
  next : m'.next = m.next
  capacity : m'.memory.capacity = m.memory.capacity
  cells : ∀ a < m.base, (∀ h ∈ η, h.Avoids a 1) → m'.memory.cell a = m.memory.cell a
  agrees : Agrees η σ m'.memory
  pc : m'.pc = address
  top : m'.top = m.base + v.length
  full : m'.top ≤ m'.memory.capacity
  value : m'.memory.read m.base v.length = v
  size : v.length = size

/-- Functions do what the evaluator says, with this fuel. -/
def FunctionsSimulated (L : Listing) (context : Context) (bound n : Nat) : Prop :=
  ∀ {η σ bases env start name lines types variadic ret vs caller address m} {closure : Closure},
    Scoped L context η closure.scope env bases →
    EmitsFunction L env start name closure.params closure.body lines → L.Holds start lines →
    context.function? name = some (.function types variadic ret) →
    types.map Ty.size <+: vs.map List.length →
    Entered η σ bases vs caller address start m →
    m.top + L.cost context lines + n * L.cost context L.lines ≤ bound →
    Simulates L.image.code bound n (invoke (setting L context) (n + 1) closure vs σ)
      (Returned η caller address m ret.size) m

section Places

variable {L : Listing} {context : Context} {η : List Home} {σ : Store} {ρ : Scope} {env : Env}
  {bases : List Nat} {call : Caller}

theorem read_part {memory : Memory} {start size d count : Nat} {v : Value}
    (h : memory.read start size = v) (hle : d + count ≤ size) :
    memory.read (start + d) count = (v.drop d).take count := by
  subst h
  rw [show size = d + (count + (size - d - count)) by omega, Memory.read_add, Memory.read_add,
    List.drop_left' Memory.length_read, List.take_left' Memory.length_read]

/-- The value of a place is a part of the contents of a location, and its cells are that part of the
location's home. -/
theorem place_eval {e : Expr} {slot : Slot} (hscoped : Scoped L context η ρ env bases)
    (h : EmitsPlace env e slot) : ∃ base home d, home ∈ η ∧ slot.level ≤ env.level ∧
      bases[env.level - slot.level]? = some base ∧ base + slot.offset = home.address + d ∧
      d + slot.ty.size ≤ home.size ∧
      (σ[home.location]? = some none → expr (setting L context) call ρ e σ = .error .undefined) ∧
      ∀ v, σ[home.location]? = some (some v) → v.length = home.size →
        expr (setting L context) call ρ e σ = .ok ((v.drop d).take slot.ty.size, σ) := by
  induction h with
  | name hx hty =>
    obtain ⟨location, base, hvar, hle, hbase, hhome⟩ := hscoped.var?_some hx
    refine ⟨base, _, 0, hhome, hle, hbase, rfl, by simp, ?_, ?_⟩
    · intro hnone
      simp only [expr, hvar, require, bind_apply, pure_apply, read, hnone]
    · intro v hv hlen
      simp only [expr, hvar, require, bind_apply, pure_apply, read, hv]
      rw [List.drop_zero, List.take_of_length_le (Nat.le_of_eq hlen)]
  | @member t field k n slot offset h hoffset hle ih =>
    obtain ⟨base, home, d, hhome, hlevel, hbase, haddress, hd, hundefined, hdefined⟩ := ih
    have hty := h.ty
    refine ⟨base, home, d + offset, hhome, hlevel, hbase, ?_, ?_, ?_, ?_⟩
    · show base + (slot.offset + offset) = _
      omega
    · show d + offset + n.ty.size ≤ _
      rw [hty] at hle
      omega
    · intro hnone
      simp only [expr, bind_apply, hundefined hnone]
    · intro v hv hlen
      simp only [expr, bind_apply, hdefined v hv hlen, Option.bind_some, hoffset,
        require, pure_apply]
      rw [hty] at hle
      rw [List.drop_take, List.take_take, List.drop_drop, Nat.min_eq_left (by omega)]

end Places

section Operators

theorem unary_eq {op : UnaryOp} {ty : Ty} {operator : Operator}
    (h : unaryOperator? op ty = some operator) (c : Cell) :
    unary op ty c = operator.apply 0 c := by
  cases op <;> simp only [unaryOperator?, reduceCtorEq, Option.some.injEq] at h
  case neg =>
    subst h
    by_cases hty : ty = .real <;> simp [hty, unary]
  case not =>
    subst h
    rfl

theorem binary_eq (op : BinaryOp) (ty : Ty) (a b : Cell) :
    binary op ty a b = (binaryOperator op ty).apply a b := by
  cases op <;> cases ty <;> rfl

end Operators

section Cases

variable {L : Listing} {context : Context} {η : List Home} {σ σ' : Store} {ρ : Scope} {env : Env}
  {bases : List Nat} {call : Caller} {bound n start f f' pc size : Nat} {m m₁ m' : Machine}
  {v : Value}

theorem Pushed.single (h : Pushed η f f' pc m 1 v σ m') : ∃ c, v = [c] :=
  List.length_eq_one_iff.mp h.size

theorem Simulates.bind_single {α : Type} {code : Array Instruction} {x : Eval Value}
    {g : Cell → Eval α} {Q : α → Store → Machine → Prop} (hsize : size = 1)
    (h : Simulates code bound n (x σ) (Pushed η f f' pc m size) m)
    (hg : ∀ c σ' m', Pushed η f f' pc m 1 [c] σ' m' → Simulates code bound n (g c σ') Q m') :
    Simulates code bound n ((x >>= fun v => single v >>= g) σ) Q m := by
  subst hsize
  refine h.bind fun v σ' m' hp => ?_
  obtain ⟨c, rfl⟩ := hp.single
  exact hg c σ' m' hp

theorem Pushed.unary (h : Pushed η f f' pc m 1 [c] σ' m₁) (hrunning : Running η σ bases m)
    {operator : Operator} (hunary : operator.isUnary = true)
    (hfetch : L.image.code[pc]? = some ⟨.opr, 0, operator.operand⟩) :
    m₁.Leads L.image.code bound (Pushed η f f' (pc + 1) m 1 [operator.apply 0 c] σ') := by
  have htop : m₁.top = m.top + 1 := h.top
  have hcell : m₁.memory.cell m.top = c := by
    simpa [Memory.read_succ] using h.value
  have hroom : m.top < m₁.memory.capacity := by
    have := h.full
    omega
  rw [← h.pc] at hfetch
  refine .step (Machine.step_unary hfetch operator.ofOperand?_operand hunary htop hroom) (.done ?_)
  refine h.change hrunning rfl rfl (by simp) ?_ (by rw [Machine.moved_pc, h.pc]) rfl ?_ ?_ rfl
  · intro a ha
    exact Memory.cell_put_of_ne (by omega)
  · simpa using Nat.succ_le_of_lt hroom
  · simp [Memory.read_succ, hcell]

theorem Pushed.binary (h : Pushed η f f' pc m 2 [a, b] σ' m₁) (hrunning : Running η σ bases m)
    {operator : Operator} (hbinary : operator.isUnary = false)
    (hfetch : L.image.code[pc]? = some ⟨.opr, 0, operator.operand⟩) :
    m₁.Leads L.image.code bound (Pushed η f f' (pc + 1) m 1 [operator.apply a b] σ') := by
  have htop : m₁.top = m.top + 2 := h.top
  have hcells : m₁.memory.cell m.top = a ∧ m₁.memory.cell (m.top + 1) = b := by
    simpa [Memory.read_succ] using h.value
  have hroom : m.top + 1 < m₁.memory.capacity := by
    have := h.full
    omega
  rw [← h.pc] at hfetch
  refine .step (Machine.step_binary hfetch operator.ofOperand?_operand hbinary htop hroom)
    (.done ?_)
  refine h.change hrunning rfl rfl (by simp) ?_ (by rw [Machine.moved_pc, h.pc]) rfl ?_ ?_ rfl
  · intro a ha
    exact Memory.cell_put_of_ne (by omega)
  · simpa using Nat.le_of_lt hroom
  · simp [Memory.read_succ, hcells]

theorem leads_literal (hready : Ready η σ bases f f' start m) {c : Cell}
    (hholds : L.Holds start [env.line .lit 0 c]) (hbound : m.top < bound) :
    m.Leads L.image.code bound (Pushed η f f' (start + 1) m 1 [c] σ) := by
  have hfetch := Listing.fetch (holds_singleton.mp hholds)
  rw [← hready.pc] at hfetch ⊢
  exact (leads_lit hfetch hbound).trans fun m' h => .done (h.pushed hready rfl)

theorem Ready.load (hready : Ready η σ bases f f start m) {level offset base : Nat}
    (hholds : L.Holds start (env.loads level offset size)) (hbase : bases[level]? = some base)
    (hbelow : 0 < size → base + offset + size ≤ m.top) (hbound : m.top + size ≤ bound) :
    m.Leads L.image.code bound
      (Pushed η f f (start + size) m size (m.memory.read (base + offset) size) σ) := by
  have hrunning := hready.running
  obtain ⟨bs, rfl⟩ := hrunning.mem_base
  rw [← hready.pc] at hholds
  refine (leads_loads hholds hrunning.linked rfl hbase hbelow hrunning.full hrunning.small
    hbound).trans fun m' hgrown => .done ?_
  rw [hready.pc] at hgrown
  exact hgrown.pushed hready Memory.length_read

theorem place_simulates {e : Expr} {slot : Slot} (h : EmitsPlace env e slot)
    (hholds : L.Holds start (env.loads (env.distance slot) slot.offset slot.ty.size))
    (hscoped : Scoped L context η ρ env bases) (hready : Ready η σ bases f f start m)
    (hbound : m.top + slot.ty.size ≤ bound) :
    Simulates L.image.code bound n (expr (setting L context) call ρ e σ)
      (Pushed η f f (start + slot.ty.size) m e.ty.size) m := by
  obtain ⟨base, home, d, hhome, hlevel, hbase, haddress, hd, hundefined, hdefined⟩ :=
    @place_eval L context η σ ρ env bases call e slot hscoped h
  obtain ⟨contents, hσ, hcontents⟩ := hready.running.agrees home hhome
  cases contents with
  | none =>
    rw [hundefined hσ]
    trivial
  | some v =>
    obtain ⟨hlen, hread⟩ := hcontents v rfl
    rw [hdefined v hσ hlen, h.ty]
    have hbelow := hready.running.below home hhome
    have hleads := hready.load hholds hbase (fun _ => by omega) hbound
    rw [haddress, read_part hread hd] at hleads
    exact hleads

theorem Pushed.store (h : Pushed η f f' pc m size v σ' m₁) (hready : Ready η σ bases f f' start m)
    {level offset base location : Nat} (hholds : L.Holds pc (env.stores level offset size))
    (hbase : bases[level]? = some base) (hhome : ⟨location, base + offset, size⟩ ∈ η) :
    m₁.Leads L.image.code bound
      (Pushed η f f' (pc + size) m 0 [] (σ'.set location (some v))) := by
  have hrunning := hready.running
  have htop : m₁.top = m.top + size := by rw [h.top, h.size]
  have hbelow := hrunning.below _ hhome
  have hlinked := hrunning.links hready.low h.kept
  obtain ⟨bs, rfl⟩ := hrunning.mem_base
  have hclear : ∀ b ∈ m.base :: bs, b < base + offset ∨ base + offset + size ≤ b := by
    intro b hb
    have := hrunning.clear _ hhome b hb
    simp only [Home.Avoids, headerSize] at this
    omega
  have hsmall : m₁.memory.capacity < 2 ^ 63 := by
    rw [h.kept.capacity]
    exact hrunning.small
  rw [← h.pc] at hholds
  refine (leads_stores hholds hlinked h.kept.base hbase (fun _ => hbelow) hclear htop h.full
    hsmall).trans fun m' hs => .done ?_
  refine ⟨h.kept.trans ⟨hs.base, hs.next, hs.capacity, ?_⟩, ?_, by rw [hs.pc, h.pc], hs.top, ?_,
    rfl, rfl⟩
  · intro a _ hav _
    have := hav _ hhome
    simp only [Home.Avoids] at this
    exact hs.cells a (by omega)
  · refine h.agrees.set hrunning.apart hhome h.size ?_ ?_
    · rw [hs.value, ← h.size]
      exact h.value
    · intro other _ i _ hav
      simp only [Home.Avoids] at hav
      exact hs.cells _ (by omega)
  · have := h.full
    rw [hs.top, hs.capacity]
    omega

theorem Pushed.assign (h : Pushed η f f' pc m size v σ' m₁) (hready : Ready η σ bases f f' start m)
    {level offset base location : Nat} (hholds : L.Holds pc (env.stores level offset size))
    (hbase : bases[level]? = some base) (hhome : ⟨location, base + offset, size⟩ ∈ η) :
    Simulates L.image.code bound n (assign location v σ') (fun _ σ'' m' =>
      Pushed η f f' (pc + size) m 0 [] σ'' m' ∧ m'.memory.read (base + offset) size = v) m₁ := by
  obtain ⟨contents, hσ, -⟩ := h.agrees _ hhome
  unfold Evaluation.assign
  rw [hσ]
  cases contents with
  | none => trivial
  | some _ =>
    refine (h.store hready hholds hbase hhome).trans fun m' hp => .done ⟨hp, ?_⟩
    obtain ⟨contents, hset, hread⟩ := hp.agrees _ hhome
    rw [List.getElem?_set_self (h.agrees.lt hhome), Option.some.injEq] at hset
    exact (hread v hset.symm).2

theorem Pushed.spill (h : Pushed η f f' pc m size v σ' m₁) {g g' offset : Nat}
    (hready : Ready η σ bases g g' start m) (hlow : g ≤ f) (hhigh : f' ≤ g') (hoffset : g ≤ offset)
    (hend : offset + size ≤ g') (hholds : L.Holds pc (env.stores 0 offset size)) :
    m₁.Leads L.image.code bound fun m' =>
      Pushed η g g' (pc + size) m 0 [] σ' m' ∧ m'.memory.read (m.base + offset) size = v := by
  have hrunning := hready.running
  have hheader := hready.low
  have htop : m₁.top = m.top + size := by rw [h.top, h.size]
  have hkept := h.kept.widen hlow hhigh (Nat.le_refl _)
  have hlinked := hrunning.links hheader hkept
  have hbelow : 0 < size → m.base + offset + size ≤ m.top := by
    intro hsize
    have := hready.reserved (by omega)
    omega
  obtain ⟨bs, rfl⟩ := hrunning.mem_base
  have hclear : ∀ b ∈ m.base :: bs, b < m.base + offset ∨ m.base + offset + size ≤ b := by
    intro b hb
    have := (hrunning.linked.le b hb).1
    unfold headerSize at hheader
    omega
  have hsmall : m₁.memory.capacity < 2 ^ 63 := by
    rw [h.kept.capacity]
    exact hrunning.small
  rw [← h.pc] at hholds
  refine (leads_stores hholds hlinked h.kept.base rfl hbelow hclear htop h.full hsmall).trans
    fun m' hs => .done ?_
  refine ⟨⟨hkept.trans ⟨hs.base, hs.next, hs.capacity, ?_⟩, ?_, by rw [hs.pc, h.pc], hs.top, ?_,
    rfl, rfl⟩, ?_⟩
  · intro a _ _ hout
    rw [h.kept.base] at hout
    exact hs.cells a (by omega)
  · refine h.agrees.congr fun home hhome i hi => hs.cells _ ?_
    have := hready.free home hhome
    simp only [Home.Avoids] at this
    omega
  · have := h.full
    rw [hs.top, hs.capacity]
    omega
  · rw [hs.value, ← h.size]
    exact h.value

theorem Pushed.member (h : Pushed η f f' pc m size v σ' m₁)
    (hready : Ready η σ bases f (f' + size) start m) (hle : f ≤ f') {offset count : Nat}
    (hpart : offset + count ≤ size) (hstores : L.Holds pc (env.stores 0 f' size))
    (hloads : L.Holds (pc + size) (env.loads 0 (f' + offset) count))
    (hbound : m.top + count ≤ bound) : m₁.Leads L.image.code bound
      (Pushed η f (f' + size) (pc + size + count) m count ((v.drop offset).take count) σ') := by
  refine (h.spill hready (Nat.le_refl _) (Nat.le_add_right _ _) hle (Nat.le_refl _) hstores).trans
    fun m₂ hspilled => ?_
  obtain ⟨hs, hread⟩ := hspilled
  have hready₂ := hready.after hs (by omega) (Nat.le_refl _)
  have htop : m₂.top = m.top := hs.top
  have hbase : bases[0]? = some m.base := by
    rw [← List.head?_eq_getElem?]
    exact hready.running.base
  refine (hready₂.load hloads hbase ?_ (by omega)).trans fun m₃ hp => .done ?_
  · intro hcount
    have := hready.reserved (by omega)
    omega
  · rw [← Nat.add_assoc, read_part hread hpart] at hp
    simpa using hs.append hready hp (by omega) (Nat.le_refl _)

theorem Pushed.test (h : Pushed η f f' pc m 1 [c] σ' m₁) (hrunning : Running η σ bases m)
    {target : Nat} (hfetch : L.image.code[pc]? = some ⟨.jpc, 0, Int64.ofInt target⟩)
    (htarget : target < 2 ^ 63) : m₁.Leads L.image.code bound
      (Pushed η f f' (if c = 0 then target else pc + 1) m 0 [] σ') := by
  have htop : m₁.top = m.top + 1 := h.top
  have hcell : m₁.memory.cell m.top = c := by
    simpa [Memory.read_succ] using h.value
  have hroom : m.top < m₁.memory.capacity := by
    have := h.full
    omega
  rw [← h.pc] at hfetch
  refine .step (Machine.step_jpc hfetch htop hroom) (.done ?_)
  refine h.change hrunning rfl rfl rfl (fun _ _ => rfl) ?_ rfl (Nat.le_of_lt hroom) rfl rfl
  rw [hcell, Cell.toAddress_ofInt (by omega), h.pc]

theorem Pushed.step_jump (h : Pushed η f f' pc m size v σ' m₁) {target : Nat}
    (hfetch : L.image.code[pc]? = some ⟨.jmp, 0, Int64.ofInt target⟩) (htarget : target < 2 ^ 63) :
    ∃ m', m₁.step L.image.code = .ok m' ∧ Pushed η f f' target m size v σ' m' := by
  rw [← h.pc] at hfetch
  refine ⟨_, Machine.step_jmp hfetch, ?_⟩
  rw [Cell.toAddress_ofInt (by omega)]
  exact ⟨⟨h.kept.base, h.kept.next, h.kept.capacity, h.kept.cells⟩, h.agrees, rfl, h.top, h.full,
    h.value, h.size⟩

theorem Pushed.jump (h : Pushed η f f' pc m size v σ' m₁) {target : Nat}
    (hfetch : L.image.code[pc]? = some ⟨.jmp, 0, Int64.ofInt target⟩) (htarget : target < 2 ^ 63) :
    m₁.Leads L.image.code bound (Pushed η f f' target m size v σ') := by
  obtain ⟨m', hstep, hp⟩ := h.step_jump hfetch htarget
  exact .step hstep (.done hp)

end Cases

/-- A frame has been opened on top of the stack. -/
structure Opened (link : Nat) (m m' : Machine) : Prop where
  base : m'.base = m.base
  next : m'.next = m.top
  capacity : m'.memory.capacity = m.memory.capacity
  pc : m'.pc = m.pc + 1
  top : m'.top = m.top + headerSize
  full : m'.top ≤ m'.memory.capacity
  cells : ∀ a < m.top, m'.memory.cell a = m.memory.cell a
  link : m'.memory.cell m.top = .ofAddress link
  caller : m'.memory.cell (m.top + 1) = .ofAddress m.base
  parked : m'.memory.cell (m.top + 2) = .ofAddress m.next

theorem Running.follow {η : List Home} {σ : Store} {bases : List Nat} {m : Machine}
    (h : Running η σ bases m) {k base : Nat} (hk : bases[k]? = some base) :
    Machine.follow? m.memory k m.base = some base := by
  obtain ⟨bs, rfl⟩ := h.mem_base
  have := h.small
  exact h.linked.follow h.full (by omega) hk

section Calls

variable {L : Listing} {η : List Home} {σ σ' : Store} {bases : List Nat}
  {bound start f f' pc link level entry size : Nat} {m m₁ m₂ : Machine} {vs : List Value}

theorem leads_cap {code : Array Instruction} {c : Cell}
    (hlink : Machine.follow? m.memory level m.base = some link)
    (hfetch : code[m.pc]? = some ⟨.cap, level, c⟩) (hbound : m.top + 3 ≤ bound) :
    m.Leads code bound (Opened link m) := by
  by_cases hroom : m.top + 3 ≤ m.memory.capacity
  · refine .step (Machine.step_cap hlink hfetch hroom) (.done ?_)
    refine ⟨rfl, rfl, by simp, rfl, rfl, by simpa using hroom, ?_, ?_, ?_, ?_⟩
    · intro a ha
      simp only [Machine.moved_memory]
      rw [Memory.cell_put_of_ne (by omega), Memory.cell_put_of_ne (by omega),
        Memory.cell_put_of_ne (by omega)]
    · simp only [Machine.moved_memory]
      rw [Memory.cell_put_of_ne (by omega), Memory.cell_put_of_ne (by omega), Memory.cell_put_self]
    · simp only [Machine.moved_memory]
      rw [Memory.cell_put_of_ne (by omega), Memory.cell_put_self]
    · simp only [Machine.moved_memory, Memory.cell_put_self]
  · exact .overflow (by omega) (Machine.faults_cap hlink hfetch (by omega))

theorem Opened.ready (h : Opened link m m₁) (hready : Ready η σ bases f f' start m) :
    Ready η σ bases f f' (start + 1) m₁ := by
  have hrunning := hready.running
  have htop := h.top
  have hfull := hrunning.full
  have hsmall := hrunning.small
  refine ⟨⟨by rw [hrunning.base, h.base], ?_, hrunning.apart, hrunning.clear, ?_, ?_,
    h.full, ?_, ?_⟩, ?_, ?_, hready.low, by rw [h.pc, hready.pc]⟩
  · refine hrunning.linked.congr (by omega) fun b _ hb => h.cells b ?_
    unfold headerSize at hb
    omega
  · exact hrunning.agrees_of_cells h.cells hrunning.agrees
  · intro home hhome
    have := hrunning.below home hhome
    omega
  · rw [h.capacity]
    exact hsmall
  · rw [h.next]
    omega
  · rw [h.base]
    exact hready.free
  · rw [h.base]
    intro hlt
    have := hready.reserved hlt
    omega

theorem Opened.header (h : Opened link m m₁) (hready : Ready η σ bases f f' start m)
    {v : Value} (hp : Pushed η f f' pc m₁ size v σ' m₂) {i : Nat} (hi : i < headerSize) :
    m₂.memory.cell (m.top + i) = m₁.memory.cell (m.top + i) := by
  refine hp.kept.cells _ (by rw [h.top]; omega) ?_ ?_
  · intro home hhome
    have := hready.running.below home hhome
    exact .inl (by omega)
  · by_cases hlt : f < f'
    · have := hready.reserved hlt
      rw [h.base]
      omega
    · omega

theorem Opened.entered (h : Opened link m m₁) (hready : Ready η σ bases f f' start m)
    (hp : Pushed η f f' pc m₁ size vs.flatten σ' m₂) {k : Nat} (hk : bases[k]? = some link)
    {code : Array Instruction} (hfetch : code[pc]? = some ⟨.cal, level, Int64.ofInt entry⟩)
    (hentry : entry < 2 ^ 63) (hpc : pc + 1 < 2 ^ 63) :
    ∃ m₃, m₂.step code = .ok m₃ ∧ Entered η σ' (bases.drop k) vs m.base (pc + 1) entry m₃ ∧
      m₃.base = m.top ∧ m₃.next = m.next ∧ m₃.top = m₂.top ∧
      m₃.memory.capacity = m₂.memory.capacity ∧
      ∀ a < m.top, m₃.memory.cell a = m₂.memory.cell a := by
  have hrunning := hready.running
  have hready₁ := h.ready hready
  have hrunning₂ := hready₁.running.after hready.low hp.kept hp.agrees (by have := hp.top; omega)
    hp.full
  have hfull := hp.full
  have hsmall := hrunning₂.small
  have htop : m₂.top = m.top + 3 + vs.flatten.length := by rw [hp.top, h.top, headerSize]
  have hnext : m₂.next = m.top := hp.kept.next.trans h.next
  have hroom : m₂.next + 2 < m₂.memory.capacity := by omega
  have hparked : (m₂.memory.cell (m₂.next + 2)).toAddress = m.next := by
    have := hrunning.next
    rw [hnext, h.header hready hp (by decide), h.parked, Cell.toAddress_ofAddress (by omega)]
  rw [← hp.pc] at hfetch
  have hstep := Machine.step_cal hfetch hroom
  rw [hnext, hp.pc, Cell.toAddress_ofInt (by omega)] at hstep
  rw [hnext] at hparked
  rw [hparked] at hstep
  generalize hmemory : m₂.memory.put (m.top + 2) (.ofAddress (pc + 1)) = memory at hstep
  have hcapacity : memory.capacity = m₂.memory.capacity := by rw [← hmemory, Memory.capacity_put]
  have hcells : ∀ {a}, a ≠ m.top + 2 → memory.cell a = m₂.memory.cell a := by
    intro a ha
    rw [← hmemory, Memory.cell_put_of_ne ha]
  have hbases : ∀ b ∈ bases, b ≤ m.top := by
    obtain ⟨bs, rfl⟩ := hrunning.mem_base
    exact fun b hb => (hrunning.linked.le b hb).2
  have hlink : memory.cell m.top = .ofAddress link := by
    rw [hcells (by omega), ← h.link]
    exact h.header hready hp (i := 0) (by decide)
  have hcaller : memory.cell (m.top + 1) = .ofAddress m.base := by
    rw [hcells (by omega), h.header hready hp (by decide), h.caller]
  refine ⟨_, hstep, ⟨rfl, ?_, hcaller, ?_, ?_, hpc, htop, ?_, hrunning.apart, ?_, ?_,
    hrunning.below, ?_, ?_, hrunning.next⟩, rfl, rfl, rfl, hcapacity, fun a ha => hcells (by omega)⟩
  · have hlt := (List.getElem?_eq_some_iff.mp hk).1
    have hdrop : bases.drop k = link :: bases.drop (k + 1) := by
      rw [List.drop_eq_getElem_cons hlt, (List.getElem?_eq_some_iff.mp hk).2]
    have hlinked := (hrunning₂.linked.drop hlt).congr (Nat.le_refl _) fun b hb _ =>
      hcells (a := b) (by have := hbases b (List.mem_of_mem_drop hb); omega)
    rw [hdrop] at hlinked ⊢
    exact .frame (by simp only [headerSize]; omega) (hbases link (List.mem_of_getElem? hk)) hlink
      hlinked
  · have := hrunning.full
    have := hrunning.small
    have := hbases m.base (List.mem_of_mem_head? hrunning.base)
    omega
  · rw [← hmemory, Memory.cell_put_self]
  · have hargs := hp.value
    rw [h.top] at hargs
    rw [← hargs, Memory.length_read]
    exact Memory.read_congr fun i _ => hcells (by simp only [headerSize]; omega)
  · exact fun home hhome b hb => hrunning.clear home hhome b (List.mem_of_mem_drop hb)
  · refine hp.agrees.congr fun home hhome i hi => hcells ?_
    have := hrunning.below home hhome
    omega
  · show m₂.top ≤ memory.capacity
    omega
  · show memory.capacity < 2 ^ 63
    omega

theorem Opened.returned (h : Opened link m m₁) (hp : Pushed η f f' pc m₁ size vs.flatten σ' m₂)
    {m₃ m' : Machine} (hbase : m₃.base = m.top) (hnext : m₃.next = m.next)
    (hcapacity : m₃.memory.capacity = m₂.memory.capacity)
    (hcells : ∀ a < m.top, m₃.memory.cell a = m₂.memory.cell a) {size' : Nat} {v : Value}
    {σ'' : Store} (hr : Returned η m.base (pc + 1) m₃ size' v σ'' m') :
    Pushed η f f' (pc + 1) m size' v σ'' m' := by
  refine ⟨⟨hr.base, hr.next.trans hnext, ?_, ?_⟩, hr.agrees, hr.pc, ?_, hr.full, ?_, hr.size⟩
  · rw [hr.capacity, hcapacity, hp.kept.capacity, h.capacity]
  · intro a ha hav hout
    have htop := h.top
    rw [hr.cells a (by omega) hav, hcells a ha,
      hp.kept.cells a (by omega) hav (by rw [h.base]; exact hout), h.cells a ha]
  · rw [hr.top, hbase]
  · rw [← hbase]
    exact hr.value

end Calls

/-- Values of expressions have been pushed one after the other. -/
structure PushedAll (η : List Home) (f f' pc : Nat) (m : Machine) (types : List Ty)
    (vs : List Value) (σ : Store) (m' : Machine) : Prop where
  pushed : Pushed η f f' pc m (cellsOf types) vs.flatten σ m'
  sizes : vs.map List.length = types.map Ty.size

section Expressions

variable {L : Listing} {context : Context} {η : List Home} {bases : List Nat} {ρ : Scope}
  {bound n : Nat}

mutual

/-- The code of an expression pushes its value. -/
theorem expr_simulates (hfits : L.Fits context)
    (hcalls : ∀ k, n = k + 1 → FunctionsSimulated L context bound k) {env : Env}
    {start f f' : Nat} {e : Expr} {lines : List Line} {σ : Store} {m : Machine} :
    EmitsExpr L env start f e lines f' → L.Holds start lines → Scoped L context η ρ env bases →
    Ready η σ bases f f' start m →
    m.top + L.cost context lines + n * L.cost context L.lines ≤ bound →
    Simulates L.image.code bound n (expr (setting L context) (invoke (setting L context) n) ρ e σ)
      (Pushed η f f' (start + lines.length) m e.ty.size) m
  | .integer h, hholds, hscoped, hready, hbound | .real h, hholds, hscoped, hready, hbound => by
    have := @Listing.three_le_reach L context
    simp only [Listing.cost_cons] at hbound
    rw [Expr.ty, Expr.note, h, expr]
    exact leads_literal hready hholds (by omega)
  | .text h hindex, hholds, hscoped, hready, hbound => by
    have := @Listing.three_le_reach L context
    simp only [Listing.cost_cons] at hbound
    rw [Expr.ty, Expr.note, h, expr]
    simp only [setting, hindex, require]
    exact leads_literal hready hholds (by omega)
  | @EmitsExpr.boolean _ _ _ _ v _ h, hholds, hscoped, hready, hbound => by
    have := @Listing.three_le_reach L context
    simp only [Listing.cost_cons] at hbound
    rw [Expr.ty, Expr.note, h, expr]
    have hbool : Int64.ofInt (if v then 1 else 0) = Cell.ofBool v := by cases v <;> rfl
    rw [hbool] at hholds
    exact leads_literal hready hholds (by omega)
  | .place h, hholds, hscoped, hready, hbound => by
    rw [length_loads]
    refine place_simulates h hholds hscoped hready (Nat.le_trans ?_ hbound)
    exact Nat.le_trans (Nat.add_le_add_left Listing.size_le_cost_loads _) (Nat.le_add_right _ _)
  | .plus h he hn, hholds, hscoped, hready, hbound => by
    rw [Expr.ty, Expr.note, hn, expr]
    exact (expr_simulates hfits hcalls h hholds hscoped hready hbound).bind_single he
      fun c σ' m' hp => .done hp
  | .unary h hop he hn, hholds, hscoped, hready, hbound => by
    rw [holds_append, holds_singleton] at hholds
    simp only [Listing.cost_append] at hbound
    rw [Expr.ty, Expr.note, hn, expr, List.length_append, ← Nat.add_assoc]
    refine (expr_simulates hfits hcalls h hholds.1 hscoped hready (by omega)).bind_single he
      fun c σ' m' hp => ?_
    rw [unary_eq hop]
    exact hp.unary hready.running (isUnary_unaryOperator? hop) (Listing.fetch hholds.2)
  | @EmitsExpr.binary _ _ start f f₁ f₂ op l r note a b hl hr hsl hsr hn, hholds, hscoped, hready,
      hbound => by
    have hlroom := hl.room
    have hrroom := hr.room
    have hcost := hl.size_le
    rw [hscoped.context_eq, hsl] at hcost
    rw [List.append_assoc, holds_append, holds_append, holds_singleton] at hholds
    simp only [Listing.cost_append] at hbound
    rw [show (Expr.binary op l r note).ty.size = 1 from hn, expr, List.append_assoc,
      List.length_append, List.length_append, ← Nat.add_assoc, ← Nat.add_assoc]
    refine (expr_simulates hfits hcalls hl hholds.1 hscoped
      (hready.part (Nat.le_refl _) hrroom.1 hlroom.1) (by omega)).bind_single hsl
      fun x σ₁ m₁ hx => ?_
    have hready₁ := hready.after hx hlroom.1 hrroom.1
    have htop : m₁.top = m.top + 1 := hx.top
    refine (expr_simulates hfits hcalls hr hholds.2.1 hscoped hready₁ (by omega)).bind_single hsr
      fun y σ₂ m₂ hy => ?_
    rw [binary_eq]
    exact (hx.append hready hy hlroom.1 hrroom.1).binary hready.running
      (isUnary_binaryOperator op l.ty) (Listing.fetch hholds.2.2)
  | @EmitsExpr.spill _ _ start f f' t field k note a offset h _ hoffset hle, hholds, hscoped,
      hready, hbound => by
    have hroom := h.room
    have hcost := h.size_le
    rw [hscoped.context_eq] at hcost
    have hcost' := @Listing.size_le_cost_loads L context env 0 (f' + offset) note.ty.size
    rw [List.append_assoc, holds_append, holds_append, length_stores] at hholds
    simp only [Listing.cost_append] at hbound
    rw [show (Expr.member t field (some k) note).ty = note.ty from rfl, expr, List.append_assoc,
      List.length_append, List.length_append, length_stores, length_loads, ← Nat.add_assoc,
      ← Nat.add_assoc]
    refine (expr_simulates hfits hcalls h hholds.1 hscoped
      (hready.part (Nat.le_refl _) (by omega) hroom.1) (by omega)).bind fun v σ₁ m₁ hv => ?_
    simp only [Option.bind_some, hoffset, require]
    exact hv.member hready hroom.1 hle hholds.2.1 hholds.2.2 (by omega)
  | @EmitsExpr.assign _ _ start f f' x xn e note a slot hx h he hn, hholds, hscoped, hready,
      hbound => by
    have hcost := @Listing.size_le_cost_loads L context env (env.distance slot) slot.offset
      slot.ty.size
    have hroom := h.room
    rw [List.append_assoc, holds_append, holds_append, length_stores] at hholds
    simp only [Listing.cost_append] at hbound
    rw [show (Expr.assign (.name x xn) e note).ty = slot.ty from hn, expr, List.append_assoc,
      List.length_append, List.length_append, length_stores, length_loads, ← Nat.add_assoc,
      ← Nat.add_assoc]
    obtain ⟨location, base, hvar, hlevel, hbase, hhome⟩ := hscoped.var?_some hx
    simp only [Expr.name?, Option.bind_some, hvar, require, pure_bind]
    refine (expr_simulates hfits hcalls h hholds.1 hscoped hready (by omega)).bind
      fun v σ₁ m₁ hv => ?_
    rw [he] at hv
    refine (hv.assign hready hholds.2.1 hbase hhome).bind fun _ σ₂ m₂ ⟨hs, hread⟩ => ?_
    have htop : m₂.top = m.top := hs.top
    have hbelow : base + slot.offset + slot.ty.size ≤ m.top := hready.running.below _ hhome
    have hready₂ := hready.after hs hroom.1 (Nat.le_refl _)
    refine (hready₂.load hholds.2.2 hbase (fun _ => by omega) (by omega)).trans
      fun m₃ hp => .done ?_
    rw [hread] at hp
    simpa using hs.append hready hp hroom.1 (Nat.le_refl _)
  | @EmitsExpr.cond _ _ start f f₁ f₂ f₃ c t e note a b d hc ht he hsc hst hse, hholds, hscoped,
      hready, hbound => by
    have hcroom := hc.room
    have htroom := ht.room
    have heroom := he.room
    have hlength := hholds.le (by simp [chooseLines])
    have hlines := hfits.lines
    simp only [List.length_append, length_chooseLines] at hlength
    rw [holds_append, holds_chooseLines] at hholds
    obtain ⟨hca, hjpc, htb, hjmp, hed⟩ := hholds
    simp only [chooseLines, Listing.cost_append] at hbound
    rw [show (Expr.cond c t e note).ty = note.ty from rfl, expr, List.length_append,
      length_chooseLines]
    refine (expr_simulates hfits hcalls hc hca hscoped
      (hready.part (Nat.le_refl _) (by omega) hcroom.1) (by omega)).bind_single hsc
      fun x σ₁ m₁ hx => ?_
    refine .after (hx.test hready.running (Listing.fetch hjpc) (by omega)) fun m₂ hp => ?_
    have htop : m₂.top = m.top := hp.top
    have hready₂ := hready.after hp hcroom.1 (by omega)
    by_cases hzero : x = 0
    · rw [if_pos hzero] at hready₂ ⊢
      have hsim := expr_simulates hfits hcalls he hed hscoped
        (hready₂.part htroom.1 (Nat.le_refl _) heroom.1) (by omega)
      refine hsim.imp fun v σ' m' hv => ?_
      have hall := hp.append hready (hv.widen htroom.1 (Nat.le_refl _)) hcroom.1 (by omega)
      rw [hse, Nat.zero_add] at hall
      rw [show start + (a.length + (b.length + d.length + 2))
        = start + a.length + 1 + b.length + 1 + d.length by omega]
      exact hall
    · rw [if_neg hzero] at hready₂ ⊢
      have hsim := expr_simulates hfits hcalls ht htb hscoped
        (hready₂.part (Nat.le_refl _) heroom.1 htroom.1) (by omega)
      refine hsim.before fun v σ' m' hv => ?_
      refine (hv.jump (Listing.fetch hjmp) (by omega)).trans fun m₃ hv => .done ?_
      have hall := hp.append hready (hv.widen (Nat.le_refl _) heroom.1) hcroom.1 (by omega)
      rw [hst, Nat.zero_add] at hall
      rw [show start + (a.length + (b.length + d.length + 2))
        = start + a.length + 1 + b.length + 1 + d.length by omega]
      exact hall
  | .construct hx hcon h hn, hholds, hscoped, hready, hbound => by
    rw [Expr.ty, Expr.note, hn, expr]
    rw [hscoped.context_eq] at hcon
    simp only [hscoped.var?_none hx, Option.isSome_none, Bool.false_eq_true, if_false, setting,
      hcon, if_true]
    exact (exprs_simulates hfits hcalls h hholds hscoped hready hbound).bind
      fun vs σ' m' hp => .done hp.pushed
  | .call hx hcon h, hholds, hscoped, hready, hbound => by
    rw [hscoped.context_eq] at hcon
    have hsim := call_simulates hfits hcalls h hholds hscoped hready hbound
    simp only [expr, hscoped.var?_none hx, Option.isSome_none, Bool.false_eq_true, if_false,
      setting, hcon]
    exact hsim

theorem call_simulates (hfits : L.Fits context)
    (hcalls : ∀ k, n = k + 1 → FunctionsSimulated L context bound k) {env : Env}
    {start f f' : Nat} {c : String} {args : List Expr} {ret : Ty} {lines : List Line} {σ : Store}
    {m : Machine} :
    EmitsCall L env start f c args ret lines f' → L.Holds start lines →
    Scoped L context η ρ env bases → Ready η σ bases f f' start m →
    m.top + L.cost context lines + n * L.cost context L.lines ≤ bound →
    Simulates L.image.code bound n
      ((do
        let closure ← require (ρ.function? c)
        let vs ← exprs (setting L context) (invoke (setting L context) n) ρ args
        invoke (setting L context) n closure vs) σ)
      (Pushed η f f' (start + lines.length) m ret.size) m
  | @EmitsCall.mk _ _ start f f' c args ret a level types variadic entry hlevel hf htypes
      hentry hargs, hholds, hscoped, hready, hbound => by
    have hlength := hholds.le (by simp)
    have hlines := hfits.lines
    have hreach := @Listing.three_le_reach L context
    rw [hscoped.context_eq] at hf
    rw [List.append_assoc, holds_append, holds_singleton, holds_append, holds_singleton] at hholds
    obtain ⟨hcap, hholdsArgs, hcal⟩ := hholds
    simp only [Listing.cost_append, Listing.cost_cons] at hbound
    simp only [List.length_append, List.length_singleton] at hlength hcal ⊢
    obtain ⟨closure, hclosure, hle, hcallable⟩ := hscoped.function? hlevel
    obtain ⟨env', start', lines', hscoped', hlevel', hfunction, hholds'⟩ := hcallable.emitted
    obtain rfl : entry = start' := by simpa [hentry] using hfunction.entry
    have hlength' := hholds'.le hfunction.ne_nil
    have hlines' := @Listing.cost_le L context lines' L.lines (by omega)
    -- The static link of the new frame leads to the frame in which the callee is defined.
    obtain ⟨link, hlink⟩ : ∃ link, bases[env.level - level]? = some link := by
      have := hscoped.length
      exact ⟨_, List.getElem?_eq_getElem (by omega)⟩
    have hfollow := hready.running.follow hlink
    simp only [hclosure, require, pure_bind]
    refine .after (leads_cap hfollow (by rw [hready.pc]; exact Listing.fetch hcap) (by omega))
      fun m₁ hopened => ?_
    have htop₁ : m₁.top = m.top + 3 := hopened.top
    refine (exprs_simulates hfits hcalls hargs hholdsArgs hscoped (hopened.ready hready)
      (by omega)).bind fun vs σ₁ m₂ hvs => ?_
    cases n with
    | zero => exact Machine.Lasts.zero
    | succ k =>
      obtain ⟨m₃, hstep, hentered, hbase, hnext, htop, hcapacity, hcells⟩ :=
        hopened.entered hready hvs.pushed hlink (Listing.fetch hcal) (by omega) (by omega)
      have hcost := hargs.size_le
      rw [hscoped.context_eq] at hcost
      have htop₂ := hvs.pushed.top
      have hlen := hvs.pushed.size
      have htypes' : types.map Ty.size <+: vs.map List.length := by
        rw [hvs.sizes]
        exact htypes.map _
      rw [Nat.add_mul, Nat.one_mul] at hbound
      refine .later hstep ((hcalls k rfl hscoped' hfunction hholds' hf htypes' hentered
        (by omega)).imp fun v σ₂ m' hr => ?_)
      have hpushed := hopened.returned hvs.pushed hbase hnext hcapacity hcells hr
      rw [show start + (1 + a.length + 1) = start + 1 + a.length + 1 by omega]
      exact hpushed

theorem exprs_simulates (hfits : L.Fits context)
    (hcalls : ∀ k, n = k + 1 → FunctionsSimulated L context bound k) {env : Env}
    {start f f' : Nat} {es : List Expr} {lines : List Line} {σ : Store} {m : Machine} :
    EmitsExprs L env start f es lines f' → L.Holds start lines → Scoped L context η ρ env bases →
    Ready η σ bases f f' start m →
    m.top + L.cost context lines + n * L.cost context L.lines ≤ bound →
    Simulates L.image.code bound n (exprs (setting L context) (invoke (setting L context) n) ρ es σ)
      (PushedAll η f f' (start + lines.length) m (es.map Expr.ty)) m
  | .nil, hholds, hscoped, hready, hbound => .done ⟨hready.nothing, rfl⟩
  | .cons h hs, hholds, hscoped, hready, hbound => by
    have hroom := h.room
    have hsroom := hs.room
    have hcost := h.size_le
    rw [hscoped.context_eq] at hcost
    rw [holds_append] at hholds
    simp only [Listing.cost_append] at hbound
    rw [exprs, List.length_append, ← Nat.add_assoc]
    refine (expr_simulates hfits hcalls h hholds.1 hscoped
      (hready.part (Nat.le_refl _) hsroom.1 hroom.1) (by omega)).bind fun v σ₁ m₁ hv => ?_
    have htop := hv.top
    have hlen := hv.size
    have hready₁ := hready.after hv hroom.1 hsroom.1
    refine (exprs_simulates hfits hcalls hs hholds.2 hscoped hready₁ (by omega)).bind
      fun vs σ₂ m₂ hvs => .done ⟨?_, ?_⟩
    · rw [List.map_cons, cellsOf_cons]
      exact hv.append hready hvs.pushed hroom.1 hsroom.1
    · rw [List.map_cons, List.map_cons, List.map_cons, hvs.sizes, hlen]

end

end Expressions

end PCode.Evaluation
