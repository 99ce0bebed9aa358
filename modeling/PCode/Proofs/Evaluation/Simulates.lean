import PCode.Proofs.Evaluation.Scopes
import PCode.Proofs.Failure
import PCode.Proofs.Machine.Runs

namespace PCode.Evaluation

open Codegen

section Simulates

variable {α β : Type} {code : Array Instruction} {bound n k : Nat} {m m' : Machine} {σ : Store}

/-- The machine leads to states that belong to the value, if evaluation gives one. It does not halt
within `n` steps where evaluation runs out of fuel, and gets nowhere where evaluation is stuck. -/
def Simulates (code : Array Instruction) (bound n : Nat) (r : Except Stop (α × Store))
    (Q : α → Store → Machine → Prop) (m : Machine) : Prop :=
  match r with
  | .ok (a, σ) => m.Leads code bound (Q a σ)
  | .error .undefined => True
  | .error .timeout => m.Lasts code n
  | .error .stuck => m.Leads code bound fun _ => False

theorem Simulates.done {Q : α → Store → Machine → Prop} {a : α} (h : Q a σ m) :
    Simulates code bound n (.ok (a, σ)) Q m :=
  Machine.Leads.done h

variable {r : Except Stop (α × Store)} {Q Q' : α → Store → Machine → Prop}

theorem Simulates.after {P : Machine → Prop} (h : m.Leads code bound P)
    (hP : ∀ m', P m' → Simulates code bound n r Q m') : Simulates code bound n r Q m :=
  match r, hP with
  | .ok _, hP => h.trans hP
  | .error .undefined, _ => trivial
  | .error .timeout, hP => h.lasts hP
  | .error .stuck, hP => h.trans hP

theorem Simulates.step (hstep : m.step code = .ok m') (h : Simulates code bound n r Q m') :
    Simulates code bound n r Q m :=
  .after (.step hstep (.done rfl)) (fun _ hm' => hm' ▸ h)

theorem Simulates.later (hstep : m.step code = .ok m') (h : Simulates code bound n r Q m') :
    Simulates code bound (n + 1) r Q m :=
  match r, h with
  | .ok _, h => Machine.Leads.step hstep h
  | .error .undefined, _ => trivial
  | .error .timeout, h => Machine.Lasts.step hstep h
  | .error .stuck, h => Machine.Leads.step hstep h

theorem Simulates.mono (h : Simulates code bound n r Q m) (hk : k ≤ n) :
    Simulates code bound k r Q m :=
  match r, h with
  | .ok _, h => h
  | .error .undefined, _ => trivial
  | .error .timeout, h => Machine.Lasts.mono h hk
  | .error .stuck, h => h

theorem Simulates.before (h : Simulates code bound n r Q m)
    (hQ : ∀ a σ m', Q a σ m' → m'.Leads code bound (Q' a σ)) : Simulates code bound n r Q' m :=
  match r, h with
  | .ok (a, σ), h => h.trans (hQ a σ)
  | .error .undefined, _ => trivial
  | .error .timeout, h => h
  | .error .stuck, h => h

theorem Simulates.imp (h : Simulates code bound n r Q m) (hQ : ∀ a σ m', Q a σ m' → Q' a σ m') :
    Simulates code bound n r Q' m :=
  h.before fun a σ m' hm' => .done (hQ a σ m' hm')

theorem Simulates.bind {x : Eval α} {f : α → Eval β} {R : β → Store → Machine → Prop}
    (h : Simulates code bound n (x σ) Q m)
    (hf : ∀ a σ' m', Q a σ' m' → Simulates code bound n (f a σ') R m') :
    Simulates code bound n ((x >>= f) σ) R m := by
  rw [bind_apply]
  cases hx : x σ with
  | ok answer =>
    obtain ⟨a, σ'⟩ := answer
    rw [hx] at h
    exact .after h (hf a σ')
  | error cause =>
    rw [hx] at h
    cases cause with
    | undefined => trivial
    | timeout => exact h
    | stuck => exact h

end Simulates

/-- A state of a run in the frame of a function: static links lead along the bases, and the homes
hold what the store says. -/
structure Running (η : List Home) (σ : Store) (bases : List Nat) (m : Machine) : Prop where
  base : bases.head? = some m.base
  linked : Linked m.memory m.top bases
  apart : Apart η
  clear : ∀ h ∈ η, ∀ b ∈ bases, h.Avoids b headerSize
  agrees : Agrees η σ m.memory
  below : ∀ h ∈ η, h.address + h.size ≤ m.top
  full : m.top ≤ m.memory.capacity
  small : m.memory.capacity < 2 ^ 63
  next : m.next < 2 ^ 63

/-- Below a limit, only homes and the cells of the frame between two offsets have changed. -/
structure Kept (η : List Home) (f f' limit : Nat) (m m' : Machine) : Prop where
  base : m'.base = m.base
  next : m'.next = m.next
  capacity : m'.memory.capacity = m.memory.capacity
  cells : ∀ a < limit, (∀ h ∈ η, h.Avoids a 1) → (a < m.base + f ∨ m.base + f' ≤ a) →
    m'.memory.cell a = m.memory.cell a

/-- A value has been pushed and no cell below it has changed. -/
structure Grown (pc : Nat) (m : Machine) (v : Value) (m' : Machine) : Prop where
  base : m'.base = m.base
  next : m'.next = m.next
  capacity : m'.memory.capacity = m.memory.capacity
  pc : m'.pc = pc
  top : m'.top = m.top + v.length
  full : m'.top ≤ m'.memory.capacity
  cells : ∀ a < m.top, m'.memory.cell a = m.memory.cell a
  value : m'.memory.read m.top v.length = v

/-- The `size` topmost cells have moved to an address; `t` cells are left on the stack. -/
structure Stored (pc t address size : Nat) (m m' : Machine) : Prop where
  base : m'.base = m.base
  next : m'.next = m.next
  capacity : m'.memory.capacity = m.memory.capacity
  pc : m'.pc = pc
  top : m'.top = t
  cells : ∀ a, a < address ∨ address + size ≤ a → m'.memory.cell a = m.memory.cell a
  value : m'.memory.read address size = m.memory.read t size

section Moves

variable {m m₁ m' : Machine} {v w : Value} {pc pc' : Nat}

theorem Grown.trans (h : Grown pc m v m₁) (h' : Grown pc' m₁ w m') :
    Grown pc' m (v ++ w) m' := by
  have htop := h.top
  refine ⟨h'.base.trans h.base, h'.next.trans h.next, h'.capacity.trans h.capacity, h'.pc, ?_,
    h'.full, ?_, ?_⟩
  · rw [h'.top, htop, List.length_append, Nat.add_assoc]
  · intro a ha
    rw [h'.cells a (by omega), h.cells a ha]
  · rw [List.length_append, Memory.read_add, ← htop, h'.value]
    congr 1
    rw [Memory.read_congr fun i hi => h'.cells _ (by omega), h.value]

variable {code : Array Instruction} {bound : Nat}

theorem leads_lit {level : Nat} {c : Cell} (h : code[m.pc]? = some ⟨.lit, level, c⟩)
    (hbound : m.top < bound) : m.Leads code bound (Grown (m.pc + 1) m [c]) := by
  by_cases hroom : m.top < m.memory.capacity
  · refine .step (Machine.step_lit h hroom) (.done ?_)
    refine ⟨rfl, rfl, by simp, rfl, rfl, by simpa using Nat.succ_le_of_lt hroom, ?_, ?_⟩
    · intro a ha
      exact Memory.cell_put_of_ne (by omega)
    · simp [Memory.read_succ]
  · exact .overflow (by omega) (Machine.faults_lit h (by omega))

theorem leads_loads {L : Listing} {env : Env} {level base : Nat} {b : Nat} {bs : List Nat}
    {size : Nat} : ∀ {offset : Nat} {m : Machine}, L.Holds m.pc (env.loads level offset size) →
    Linked m.memory m.top (b :: bs) → m.base = b → (b :: bs)[level]? = some base →
    (0 < size → base + offset + size ≤ m.top) → m.top ≤ m.memory.capacity →
    m.memory.capacity < 2 ^ 63 → m.top + size ≤ bound →
    m.Leads L.image.code bound
      (Grown (m.pc + size) m (m.memory.read (base + offset) size)) := by
  induction size with
  | zero =>
    intro offset m _ _ _ _ _ hfull _ _
    exact .done ⟨rfl, rfl, rfl, rfl, rfl, hfull, fun _ _ => rfl, rfl⟩
  | succ size ih =>
    intro offset m hholds hlinked hb hbase htop hfull hsmall hbound
    have htop := htop (by omega)
    rw [loads_succ, holds_cons] at hholds
    have hfetch := Listing.fetch hholds.1
    subst hb
    have hfollow := hlinked.follow hfull (by omega) hbase
    have haddress : Cell.toAddress (Int64.ofInt offset) = offset := Cell.toAddress_ofInt (by omega)
    have hcell : base + Cell.toAddress (Int64.ofInt offset) < m.memory.capacity := by
      rw [haddress]
      omega
    by_cases hroom : m.top < m.memory.capacity
    · refine .step (Machine.step_lod hfollow hfetch hcell hroom) ?_
      rw [haddress]
      generalize hm₁ : m.moved (m.memory.put m.top (m.memory.cell (base + offset))) (m.top + 1) = m₁
      have hgrown : Grown (m.pc + 1) m [m.memory.cell (base + offset)] m₁ := by
        subst hm₁
        refine ⟨rfl, rfl, by simp, rfl, rfl, by simpa using Nat.succ_le_of_lt hroom, ?_, ?_⟩
        · intro a ha
          exact Memory.cell_put_of_ne (by omega)
        · simp [Memory.read_succ]
      have htop₁ : m₁.top = m.top + 1 := hgrown.top
      have hrest := @ih (offset + 1) m₁ (by rw [hgrown.pc]; exact hholds.2)
        (hlinked.congr (by omega) fun b' _ hb' => hgrown.cells b'
          (by unfold headerSize at hb'; omega))
        hgrown.base hbase (by omega) hgrown.full (by rw [hgrown.capacity]; exact hsmall) (by omega)
      refine hrest.trans fun m' h => .done ?_
      have hread : m₁.memory.read (base + (offset + 1)) size
          = m.memory.read (base + offset + 1) size := by
        rw [← Nat.add_assoc]
        exact Memory.read_congr fun i hi => hgrown.cells _ (by omega)
      have hall := hgrown.trans h
      rw [hread, hgrown.pc] at hall
      rw [Memory.read_succ, show m.pc + (size + 1) = m.pc + 1 + size by omega]
      exact hall
    · exact .overflow (by omega) (Machine.faults_lod hfollow hfetch hcell (by omega))

theorem leads_stores {L : Listing} {env : Env} {level base offset t : Nat} {b : Nat}
    {bs : List Nat} {size : Nat} : ∀ {m : Machine}, L.Holds m.pc (env.stores level offset size) →
    Linked m.memory t (b :: bs) → m.base = b → (b :: bs)[level]? = some base →
    (0 < size → base + offset + size ≤ t) →
    (∀ b' ∈ b :: bs, b' < base + offset ∨ base + offset + size ≤ b') →
    m.top = t + size → m.top ≤ m.memory.capacity → m.memory.capacity < 2 ^ 63 →
    m.Leads L.image.code bound (Stored (m.pc + size) t (base + offset) size m) := by
  induction size with
  | zero =>
    intro m _ _ _ _ _ _ htop _ _
    exact .done ⟨rfl, rfl, rfl, rfl, htop, fun _ _ => rfl, rfl⟩
  | succ size ih =>
    intro m hholds hlinked hb hbase htarget hclear htop hfull hsmall
    have htarget := htarget (by omega)
    rw [stores_succ, holds_cons] at hholds
    have hfetch := Listing.fetch hholds.1
    subst hb
    have hfollow := hlinked.follow (by omega) (by omega) hbase
    have haddress : Cell.toAddress (Int64.ofInt (offset + size : Nat)) = offset + size :=
      Cell.toAddress_ofInt (by omega)
    have htop' : m.top = t + size + 1 := by omega
    have hstep := Machine.step_sto hfollow hfetch htop' (by omega) (by rw [haddress]; omega)
    rw [haddress] at hstep
    refine .step hstep ?_
    generalize hm₁ : m.moved _ _ = m₁
    have hcells : ∀ a, a ≠ base + (offset + size) → m₁.memory.cell a = m.memory.cell a := by
      subst hm₁
      intro a ha
      exact Memory.cell_put_of_ne ha
    have hcell : m₁.memory.cell (base + (offset + size)) = m.memory.cell (t + size) := by
      subst hm₁
      simp
    have hcapacity : m₁.memory.capacity = m.memory.capacity := by
      subst hm₁
      simp
    have hpc : m₁.pc = m.pc + 1 := by
      subst hm₁
      rfl
    have htop₁ : m₁.top = t + size := by
      subst hm₁
      rfl
    have hbase₁ : m₁.base = m.base := by
      subst hm₁
      rfl
    have hnext₁ : m₁.next = m.next := by
      subst hm₁
      rfl
    have hrest := @ih m₁ (by rw [hpc]; exact hholds.2)
      (hlinked.congr (Nat.le_refl t) fun b' hb' _ => by
        refine hcells b' ?_
        have := hclear b' hb'
        omega)
      hbase₁ hbase (by omega) (fun b' hb' => by
        have := hclear b' hb'
        omega) htop₁ (by omega) (by omega)
    refine hrest.trans fun m' h => .done ?_
    refine ⟨h.base.trans hbase₁, h.next.trans hnext₁, h.capacity.trans hcapacity, ?_, h.top, ?_, ?_⟩
    · rw [h.pc, hpc]
      omega
    · intro a ha
      rw [h.cells a (by omega), hcells a (by omega)]
    · rw [Memory.read_add, Memory.read_add, h.value]
      rw [Memory.read_congr fun i hi => hcells (t + i) (by omega)]
      simp only [Memory.read_succ, Memory.read_zero]
      rw [h.cells _ (by omega), Nat.add_assoc, hcell]

end Moves

/-- A state in which code that uses the cells of the frame between two offsets can start. -/
structure Ready (η : List Home) (σ : Store) (bases : List Nat) (f f' pc : Nat) (m : Machine) :
    Prop where
  running : Running η σ bases m
  free : ∀ h ∈ η, h.Avoids (m.base + f) (f' - f)
  reserved : f < f' → m.base + f' ≤ m.top
  low : headerSize ≤ f
  pc : m.pc = pc

/-- The code between two offsets has pushed a value of this size. -/
structure Pushed (η : List Home) (f f' pc : Nat) (m : Machine) (size : Nat) (v : Value) (σ : Store)
    (m' : Machine) : Prop where
  kept : Kept η f f' m.top m m'
  agrees : Agrees η σ m'.memory
  pc : m'.pc = pc
  top : m'.top = m.top + v.length
  full : m'.top ≤ m'.memory.capacity
  value : m'.memory.read m.top v.length = v
  size : v.length = size

section Ready

variable {η : List Home} {σ σ' : Store} {b : Nat} {bases : List Nat}
  {f f₁ f' pc pc' size limit limit' : Nat} {m m₁ m' : Machine} {v : Value}

theorem Kept.refl (η : List Home) (f f' limit : Nat) (m : Machine) : Kept η f f' limit m m :=
  ⟨rfl, rfl, rfl, fun _ _ _ _ => rfl⟩

theorem Kept.trans (h : Kept η f f' limit m m₁) (h' : Kept η f f' limit m₁ m') :
    Kept η f f' limit m m' := by
  refine ⟨h'.base.trans h.base, h'.next.trans h.next, h'.capacity.trans h.capacity, ?_⟩
  intro a ha hav hout
  rw [h'.cells a ha hav (by rw [h.base]; exact hout), h.cells a ha hav hout]

theorem Kept.widen {g g' : Nat} (h : Kept η f f' limit m m') (hlow : g ≤ f) (hhigh : f' ≤ g')
    (hlimit : limit' ≤ limit) : Kept η g g' limit' m m' := by
  refine ⟨h.base, h.next, h.capacity, ?_⟩
  intro a ha hav hout
  exact h.cells a (by omega) hav (by omega)

theorem Running.mem_base (h : Running η σ bases m) : ∃ bs, bases = m.base :: bs := by
  cases bases with
  | nil => simpa using h.base
  | cons b bs =>
    obtain rfl : b = m.base := by simpa using h.base
    exact ⟨bs, rfl⟩

theorem Running.links (h : Running η σ bases m) (hlow : headerSize ≤ f)
    (hkept : Kept η f f' m.top m m') : Linked m'.memory m.top bases := by
  obtain ⟨bs, rfl⟩ := h.mem_base
  refine h.linked.congr (Nat.le_refl _) fun b hb hle => hkept.cells b ?_ ?_ ?_
  · unfold headerSize at hle
    omega
  · exact fun home hhome => (h.clear home hhome b hb).part (Nat.le_refl b) (by simp [headerSize])
  · have := (h.linked.le b hb).1
    unfold headerSize at hlow
    omega

theorem Running.after (h : Running η σ bases m) (hlow : headerSize ≤ f)
    (hkept : Kept η f f' m.top m m') (hagrees : Agrees η σ' m'.memory) (htop : m.top ≤ m'.top)
    (hfull : m'.top ≤ m'.memory.capacity) : Running η σ' bases m' := by
  refine ⟨by rw [h.base, hkept.base], ?_, h.apart, h.clear, hagrees, ?_, hfull, ?_, ?_⟩
  · exact (h.links hlow hkept).congr htop fun _ _ _ => rfl
  · intro home hhome
    have := h.below home hhome
    omega
  · rw [hkept.capacity]
    exact h.small
  · rw [hkept.next]
    exact h.next

theorem Ready.part {g g' : Nat} (h : Ready η σ bases f f' pc m) (hlow : f ≤ g) (hhigh : g' ≤ f')
    (hle : g ≤ g') : Ready η σ bases g g' pc m := by
  refine ⟨h.running, ?_, ?_, Nat.le_trans h.low hlow, h.pc⟩
  · intro home hhome
    exact (h.free home hhome).part (by omega) (by omega)
  · intro hlt
    have := h.reserved (by omega)
    omega

theorem Pushed.widen {g g' : Nat} (h : Pushed η f f' pc m size v σ m') (hlow : g ≤ f)
    (hhigh : f' ≤ g') : Pushed η g g' pc m size v σ m' :=
  { h with kept := h.kept.widen hlow hhigh (Nat.le_refl _) }

theorem Ready.after (h : Ready η σ bases f f' pc m) (hp : Pushed η f f₁ pc' m size v σ' m')
    (hle : f ≤ f₁) (hle' : f₁ ≤ f') : Ready η σ' bases f₁ f' pc' m' := by
  have htop := hp.top
  refine ⟨h.running.after h.low hp.kept hp.agrees (by omega) hp.full, ?_, ?_, ?_, hp.pc⟩
  · intro home hhome
    rw [hp.kept.base]
    exact (h.free home hhome).part (by omega) (by omega)
  · intro hlt
    have := h.reserved (by omega)
    rw [hp.kept.base]
    omega
  · have := h.low
    omega

theorem Running.agrees_of_cells (h : Running η σ bases m)
    (hcells : ∀ a < m.top, m'.memory.cell a = m₁.memory.cell a) (hagrees : Agrees η σ' m₁.memory) :
    Agrees η σ' m'.memory := by
  refine hagrees.congr fun home hhome i hi => hcells _ ?_
  have := h.below home hhome
  omega

theorem Grown.kept (h : Grown pc m v m') (η : List Home) (f f' : Nat) : Kept η f f' m.top m m' :=
  ⟨h.base, h.next, h.capacity, fun a ha _ _ => h.cells a ha⟩

theorem Ready.nothing (h : Ready η σ bases f f' pc m) : Pushed η f f' pc m 0 [] σ m :=
  ⟨Kept.refl η f f' m.top m, h.running.agrees, h.pc, rfl, h.running.full, rfl, rfl⟩

theorem Grown.pushed (h : Grown pc' m v m') (hready : Ready η σ bases f f' pc m)
    (hsize : v.length = size) : Pushed η f f' pc' m size v σ m' :=
  ⟨h.kept η f f', hready.running.agrees_of_cells h.cells hready.running.agrees, h.pc, h.top, h.full,
    h.value, hsize⟩

theorem Pushed.change (h : Pushed η f f' pc m size v σ' m₁) (hrunning : Running η σ bases m)
    {w : Value} {size' : Nat} (hbase : m'.base = m₁.base) (hnext : m'.next = m₁.next)
    (hcapacity : m'.memory.capacity = m₁.memory.capacity)
    (hcells : ∀ a < m.top, m'.memory.cell a = m₁.memory.cell a) (hpc : m'.pc = pc')
    (htop : m'.top = m.top + w.length) (hfull : m'.top ≤ m'.memory.capacity)
    (hvalue : m'.memory.read m.top w.length = w) (hsize : w.length = size') :
    Pushed η f f' pc' m size' w σ' m' := by
  refine ⟨h.kept.trans ⟨hbase, hnext, hcapacity, fun a ha _ _ => hcells a ha⟩, ?_, hpc, htop, hfull,
    hvalue, hsize⟩
  exact hrunning.agrees_of_cells hcells h.agrees

theorem Pushed.append (h : Pushed η f f₁ pc m size v σ m₁) {σ₀ : Store} {pc₀ f₂ size' : Nat}
    {w : Value} (hready : Ready η σ₀ bases f f₂ pc₀ m) (h' : Pushed η f₁ f₂ pc' m₁ size' w σ' m')
    (hle : f ≤ f₁) (hle' : f₁ ≤ f₂) :
    Pushed η f f₂ pc' m (size + size') (v ++ w) σ' m' := by
  have htop := h.top
  have hkept : Kept η f f₂ m.top m m' := by
    refine (h.kept.widen (Nat.le_refl f) hle' (Nat.le_refl _)).trans ?_
    exact h'.kept.widen hle (Nat.le_refl f₂) (by omega)
  refine ⟨hkept, h'.agrees, h'.pc, ?_, h'.full, ?_, ?_⟩
  · rw [h'.top, htop, List.length_append, Nat.add_assoc]
  · rw [List.length_append, Memory.read_add, ← htop, h'.value]
    congr 1
    rw [← h.value, Memory.length_read]
    refine Memory.read_congr fun i hi => h'.kept.cells _ (by omega) ?_ ?_
    · intro home hhome
      have := hready.running.below home hhome
      exact .inl (by omega)
    · by_cases hlt : f < f₂
      · have := hready.reserved hlt
        rw [h.kept.base]
        omega
      · omega
  · rw [List.length_append, h.size, h'.size]

theorem Pushed.seq (h : Pushed η f f' pc m 0 [] σ m₁) (h' : Pushed η f f' pc' m₁ size v σ' m') :
    Pushed η f f' pc' m size v σ' m' := by
  have htop : m₁.top = m.top := h.top
  have hkept := h'.kept
  rw [htop] at hkept
  refine ⟨h.kept.trans hkept, h'.agrees, h'.pc, ?_, h'.full, ?_, h'.size⟩
  · rw [h'.top, htop]
  · rw [← htop]
    exact h'.value

theorem Ready.again (h : Ready η σ bases f f' pc m) (hp : Pushed η f f' pc' m 0 [] σ' m') :
    Ready η σ' bases f f' pc' m' := by
  have htop : m'.top = m.top := hp.top
  refine ⟨h.running.after h.low hp.kept hp.agrees (by omega) hp.full, ?_, ?_, h.low, hp.pc⟩
  · rw [hp.kept.base]
    exact h.free
  · rw [hp.kept.base, htop]
    exact h.reserved

theorem Pushed.forget {new : List Home} (h : Pushed (new ++ η) f f' pc m size v σ m')
    (hnew : ∀ home ∈ new, m.base + f ≤ home.address ∧ home.address + home.size ≤ m.base + f') :
    Pushed η f f' pc m size v σ m' := by
  refine ⟨⟨h.kept.base, h.kept.next, h.kept.capacity, ?_⟩,
    h.agrees.mono fun home hhome => List.mem_append_right _ hhome, h.pc, h.top, h.full, h.value,
    h.size⟩
  intro a ha hav hout
  refine h.kept.cells a ha ?_ hout
  intro home hhome
  rcases List.mem_append.mp hhome with hhome | hhome
  · have := hnew home hhome
    unfold Home.Avoids
    omega
  · exact hav home hhome

theorem Running.extend (h : Running η σ bases m) {new : List Home} {contents : Store}
    (hlow : headerSize ≤ f) (hroom : m.base + f' ≤ m.top)
    (hfree : ∀ home ∈ η, home.Avoids (m.base + f) (f' - f)) (hapart : Apart new)
    (hnew : ∀ home ∈ new, σ.length ≤ home.location ∧
      m.base + f ≤ home.address ∧ home.address + home.size ≤ m.base + f')
    (hagrees : Agrees new (σ ++ contents) m.memory) :
    Running (new ++ η) (σ ++ contents) bases m := by
  refine ⟨h.base, h.linked, hapart.append h.apart ?_, ?_, ?_, ?_, h.full, h.small, h.next⟩
  · intro home hhome other hother
    have hnew := hnew home hhome
    have hfree := hfree other hother
    have := h.agrees.lt hother
    refine ⟨by omega, ?_⟩
    unfold Home.Avoids at hfree ⊢
    omega
  · intro home hhome b hb
    rcases List.mem_append.mp hhome with hhome | hhome
    · have := hnew home hhome
      obtain ⟨bs, rfl⟩ := h.mem_base
      have := (h.linked.le b hb).1
      unfold Home.Avoids
      omega
    · exact h.clear home hhome b hb
  · intro home hhome
    rcases List.mem_append.mp hhome with hhome | hhome
    · exact hagrees home hhome
    · exact h.agrees.append contents home hhome
  · intro home hhome
    rcases List.mem_append.mp hhome with hhome | hhome
    · have := hnew home hhome
      omega
    · exact h.below home hhome

end Ready

end PCode.Evaluation
