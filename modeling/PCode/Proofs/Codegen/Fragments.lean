import PCode.Codegen.Statement

namespace PCode.Codegen

/-- The code of a function from its entry to the address behind its last instruction. -/
structure Extent where
  name : String
  entry : Nat
  stop : Nat

def Extent.contains (x : Extent) (pc : Nat) : Bool :=
  decide (x.entry ≤ pc ∧ pc < x.stop)

/-- A function ends in front of another, or lies inside it. -/
def Extent.Precedes (x y : Extent) : Prop :=
  x.stop ≤ y.entry ∨ y.entry < x.entry ∧ x.stop < y.stop

/-- The function whose own code has an address. Functions are listed by their ends, those inside a
function before it, so the first one around the address is the innermost. -/
def owner? (extents : List Extent) (pc : Nat) : Option Extent :=
  extents.find? (·.contains pc)

section Owner

variable {extents others : List Extent} {pc : Nat}

theorem owner?_append :
    owner? (extents ++ others) pc = (owner? extents pc).or (owner? others pc) :=
  List.find?_append

theorem owner?_eq_none (h : ∀ x ∈ extents, pc < x.entry ∨ x.stop ≤ pc) :
    owner? extents pc = none := by
  apply List.find?_eq_none.mpr
  intro x hx
  have := h x hx
  simp only [Extent.contains, decide_eq_true_eq]
  omega

/-- An address of a function belongs to it where it does not belong to one inside it. -/
theorem owner?_enclosed {x : Extent} (hle : x.entry ≤ pc) (hlt : pc < x.stop) :
    owner? (extents ++ [x]) pc = (owner? extents pc).or (some x) := by
  rw [owner?_append]
  simp [owner?, Extent.contains, hle, hlt]

end Owner

namespace Item

/-- The instruction as it is first written: the entry of a function still to come is left open. -/
def draft : Item → Instruction
  | .line l => l.instruction
  | .forward _ level _ _ => ⟨.cal, level, 0⟩

/-- A call of a name: it has an entry of that name, or leaves it open. -/
def Calls (functions : Table Nat) (name : String) : Item → Prop
  | .line l => l.instruction.op = .cal ∧
    ∃ entry : Nat, (name, entry) ∈ functions ∧ l.instruction.operand = Int64.ofInt entry
  | .forward _ _ callee _ => callee = name

theorem Calls.later {functions functions' : Table Nat} {name : String} {item : Item}
    (h : item.Calls functions name) (hsuffix : functions <:+ functions') :
    item.Calls functions' name := by
  cases item with
  | line l =>
    obtain ⟨hop, entry, hmem, hoperand⟩ := h
    exact ⟨hop, entry, hsuffix.subset hmem, hoperand⟩
  | forward => exact h

end Item

/-- The items, placed from an address on, have this one at an address. -/
def Stands (start : Nat) (items : List Item) (pc : Nat) (item : Item) : Prop :=
  start ≤ pc ∧ items[pc - start]? = some item

section Stands

variable {start pc : Nat} {items others : List Item} {item other : Item}

theorem Stands.lt (h : Stands start items pc item) : pc < start + items.length := by
  have hlt := (List.getElem?_eq_some_iff.mp h.2).1
  have := h.1
  omega

theorem not_stands_nil : ¬ Stands start [] pc item := by
  simp [Stands]

theorem stands_singleton : Stands start [item] pc other ↔ pc = start ∧ other = item := by
  constructor
  · intro h
    have hlt := h.lt
    obtain ⟨hle, hget⟩ := h
    obtain rfl : pc = start := by simp at hlt; omega
    simpa [eq_comm] using hget
  · rintro ⟨rfl, rfl⟩
    simp [Stands]

theorem stands_append : Stands start (items ++ others) pc item ↔
    Stands start items pc item ∨ Stands (start + items.length) others pc item := by
  unfold Stands
  by_cases hlt : pc - start < items.length
  · rw [List.getElem?_append_left hlt]
    constructor
    · exact .inl
    · rintro (h | ⟨hle, _⟩)
      · exact h
      · omega
  · rw [List.getElem?_append_right (by omega), Nat.sub_sub]
    constructor
    · rintro ⟨hle, hget⟩
      exact .inr ⟨by omega, hget⟩
    · rintro (⟨_, hget⟩ | ⟨hle, hget⟩)
      · exact absurd (List.getElem?_eq_some_iff.mp hget).1 hlt
      · exact ⟨by omega, hget⟩

theorem stands_skipped {env : Env} :
    Stands start (skipped env start items) pc item ↔
      pc = start ∧ item = env.item .jmp 0 (start + 1 + items.length : Nat) ∨
        Stands (start + 1) items pc item := by
  rw [skipped, ← List.singleton_append, stands_append, stands_singleton, List.length_singleton]

end Stands

/-- Code from an address on, which adds functions to a table. Functions stand `slack` cells behind
its start at the earliest, and its jumps lead less than `slack` cells behind its end; they stay with
the function they stand in, or lead from no function in it to an `outer` address. -/
structure Fragment (slack : Nat) (outer : Nat → Prop) (start : Nat) (items : List Item)
    (functions functions' : Table Nat) (extents : List Extent) (calls : List (Nat × String)) :
    Prop where
  later : functions <:+ functions'
  known : ∀ f ∈ functions', f ∈ functions ∨ ∃ x ∈ extents, f = (x.name, x.entry)
  named : ∀ x ∈ extents, (x.name, x.entry) ∈ functions'
  within : ∀ x ∈ extents,
    start + slack ≤ x.entry ∧ x.entry < x.stop ∧ x.stop ≤ start + items.length
  nested : extents.Pairwise Extent.Precedes
  opens : ∀ x ∈ extents, ∃ line, Stands start items x.entry (.line line) ∧
    line.instruction.op = .ini
  jumps : ∀ pc line, Stands start items pc (.line line) →
    line.instruction.op = .jmp ∨ line.instruction.op = .jpc →
    ∃ target : Nat, line.instruction.operand = Int64.ofInt target ∧
      (outer target ∧ owner? extents pc = none ∨
        start ≤ target ∧ target < start + items.length + slack ∧
          owner? extents target = owner? extents pc)
  operators : ∀ pc line, Stands start items pc (.line line) → line.instruction.op = .opr →
    ∃ operator : Operator, line.instruction.operand = operator.operand
  logged : ∀ pc item, Stands start items pc item → item.draft.op = .cal →
    ∃ name, (pc, name) ∈ calls
  callees : ∀ call ∈ calls, ∃ item, Stands start items call.1 item ∧
    item.Calls functions' call.2

namespace Fragment

variable {slack start : Nat} {outer outer' : Nat → Prop} {items others : List Item}
  {functions functions₁ functions₂ : Table Nat} {extents extents' : List Extent}
  {calls calls' : List (Nat × String)} {env : Env} {line : Line}

section

variable (h : Fragment slack outer start items functions functions₁ extents calls)
include h

theorem owner?_before {pc : Nat} (hpc : pc < start + slack) : owner? extents pc = none := by
  apply owner?_eq_none
  intro x hx
  exact .inl (Nat.lt_of_lt_of_le hpc (h.within x hx).1)

theorem owner?_behind {pc : Nat} (hpc : start + items.length ≤ pc) : owner? extents pc = none := by
  apply owner?_eq_none
  intro x hx
  exact .inr (Nat.le_trans (h.within x hx).2.2 hpc)

theorem placed {start' : Nat} (hstart : start = start') :
    Fragment slack outer start' items functions functions₁ extents calls :=
  hstart ▸ h

end

theorem flat
    (hjumps : ∀ pc line, Stands start items pc (.line line) →
      line.instruction.op = .jmp ∨ line.instruction.op = .jpc →
      ∃ target : Nat, line.instruction.operand = Int64.ofInt target ∧ outer target)
    (hoperators : ∀ pc line, Stands start items pc (.line line) → line.instruction.op = .opr →
      ∃ operator : Operator, line.instruction.operand = operator.operand)
    (hlogged : ∀ pc item, Stands start items pc item → item.draft.op = .cal →
      ∃ name, (pc, name) ∈ calls)
    (hcallees : ∀ call ∈ calls, ∃ item, Stands start items call.1 item ∧
      item.Calls functions call.2) :
    Fragment slack outer start items functions functions [] calls where
  later := List.suffix_rfl
  known f hf := .inl hf
  named x hx := absurd hx List.not_mem_nil
  within x hx := absurd hx List.not_mem_nil
  nested := .nil
  opens x hx := absurd hx List.not_mem_nil
  jumps pc line hline hop := by
    obtain ⟨target, hoperand, houter⟩ := hjumps pc line hline hop
    exact ⟨target, hoperand, .inl ⟨houter, rfl⟩⟩
  operators := hoperators
  logged := hlogged
  callees := hcallees

theorem nil : Fragment slack outer start [] functions functions [] [] := by
  apply flat
  · intro pc line hline
    exact absurd hline not_stands_nil
  · intro pc line hline
    exact absurd hline not_stands_nil
  · intro pc item hitem
    exact absurd hitem not_stands_nil
  · intro call hcall
    exact absurd hcall List.not_mem_nil

theorem single (hcal : line.instruction.op ≠ .cal)
    (hjump : line.instruction.op = .jmp ∨ line.instruction.op = .jpc →
      ∃ target : Nat, line.instruction.operand = Int64.ofInt target ∧ outer target)
    (hopr : line.instruction.op = .opr →
      ∃ operator : Operator, line.instruction.operand = operator.operand) :
    Fragment slack outer start [.line line] functions functions [] [] := by
  apply flat
  · intro pc line' hline hop
    obtain ⟨rfl, h⟩ := stands_singleton.mp hline
    cases h
    exact hjump hop
  · intro pc line' hline hop
    obtain ⟨rfl, h⟩ := stands_singleton.mp hline
    cases h
    exact hopr hop
  · intro pc item hitem hop
    obtain ⟨rfl, rfl⟩ := stands_singleton.mp hitem
    exact absurd hop hcal
  · intro call hcall
    exact absurd hcall List.not_mem_nil

theorem call {item : Item} {name : String} (hcalls : item.Calls functions name) :
    Fragment slack outer start [item] functions functions [] [(start, name)] := by
  apply flat
  · intro pc line hline hop
    obtain ⟨rfl, rfl⟩ := stands_singleton.mp hline
    rw [hcalls.1] at hop
    simp at hop
  · intro pc line hline hop
    obtain ⟨rfl, rfl⟩ := stands_singleton.mp hline
    rw [hcalls.1] at hop
    simp at hop
  · intro pc item' hitem hop
    obtain ⟨rfl, rfl⟩ := stands_singleton.mp hitem
    exact ⟨name, List.mem_singleton.mpr rfl⟩
  · intro call hcall
    cases List.mem_singleton.mp hcall
    exact ⟨item, stands_singleton.mpr ⟨rfl, rfl⟩, hcalls⟩

theorem redirect (h : Fragment slack outer start items functions functions₁ extents calls)
    (houter : ∀ target, outer target → outer' target ∨ start ≤ target ∧
      target < start + items.length + slack ∧ owner? extents target = none) :
    Fragment slack outer' start items functions functions₁ extents calls where
  later := h.later
  known := h.known
  named := h.named
  within := h.within
  nested := h.nested
  opens := h.opens
  jumps pc line hline hop := by
    obtain ⟨target, hoperand, ⟨hout, hnone⟩ | hin⟩ := h.jumps pc line hline hop
    · refine ⟨target, hoperand, ?_⟩
      rcases houter target hout with hout | ⟨hle, hlt, htarget⟩
      · exact .inl ⟨hout, hnone⟩
      · exact .inr ⟨hle, hlt, htarget.trans hnone.symm⟩
    · exact ⟨target, hoperand, .inr hin⟩
  operators := h.operators
  logged := h.logged
  callees := h.callees

theorem weaken
    (h : Fragment slack (fun _ => False) start items functions functions₁ extents calls) :
    Fragment slack outer start items functions functions₁ extents calls :=
  h.redirect fun _ hfalse => hfalse.elim

theorem append (h : Fragment slack outer start items functions functions₁ extents calls)
    (h' : Fragment slack outer (start + items.length) others functions₁ functions₂
      extents' calls') :
    Fragment slack outer start (items ++ others) functions functions₂ (extents ++ extents')
      (calls ++ calls') where
  later := h.later.trans h'.later
  known f hf := by
    rcases h'.known f hf with hf | ⟨x, hx, hfx⟩
    · rcases h.known f hf with hf | ⟨x, hx, hfx⟩
      · exact .inl hf
      · exact .inr ⟨x, List.mem_append_left _ hx, hfx⟩
    · exact .inr ⟨x, List.mem_append_right _ hx, hfx⟩
  named x hx := by
    rcases List.mem_append.mp hx with hx | hx
    · exact h'.later.subset (h.named x hx)
    · exact h'.named x hx
  within x hx := by
    rw [List.length_append]
    rcases List.mem_append.mp hx with hx | hx
    · have := h.within x hx
      omega
    · have := h'.within x hx
      omega
  nested := by
    apply List.pairwise_append.mpr ⟨h.nested, h'.nested, ?_⟩
    intro x hx y hy
    have := h.within x hx
    have := h'.within y hy
    exact .inl (by omega)
  opens x hx := by
    rcases List.mem_append.mp hx with hx | hx
    · obtain ⟨line, hline, hop⟩ := h.opens x hx
      exact ⟨line, stands_append.mpr (.inl hline), hop⟩
    · obtain ⟨line, hline, hop⟩ := h'.opens x hx
      exact ⟨line, stands_append.mpr (.inr hline), hop⟩
  jumps pc line hline hop := by
    rw [List.length_append]
    rcases stands_append.mp hline with hline | hline
    · -- it may lead into the second piece by less than `slack` cells, so to no function there
      obtain ⟨target, hoperand, hcase⟩ := h.jumps pc line hline hop
      have hlt := hline.lt
      have hpc : owner? extents' pc = none := h'.owner?_before (by omega)
      refine ⟨target, hoperand, ?_⟩
      rw [owner?_append, owner?_append, hpc, Option.or_none]
      rcases hcase with hout | ⟨hle, hend, howner⟩
      · exact .inl hout
      · have htarget : owner? extents' target = none := h'.owner?_before hend
        rw [htarget, Option.or_none]
        exact .inr ⟨hle, by omega, howner⟩
    · obtain ⟨target, hoperand, hcase⟩ := h'.jumps pc line hline hop
      have hpc : owner? extents pc = none := h.owner?_behind hline.1
      refine ⟨target, hoperand, ?_⟩
      rw [owner?_append, owner?_append, hpc, Option.none_or]
      rcases hcase with hout | ⟨hle, hend, howner⟩
      · exact .inl hout
      · have htarget : owner? extents target = none := h.owner?_behind hle
        rw [htarget, Option.none_or]
        exact .inr ⟨by omega, by omega, howner⟩
  operators pc line hline hop := by
    rcases stands_append.mp hline with hline | hline
    · exact h.operators pc line hline hop
    · exact h'.operators pc line hline hop
  logged pc item hitem hop := by
    rcases stands_append.mp hitem with hitem | hitem
    · obtain ⟨name, hname⟩ := h.logged pc item hitem hop
      exact ⟨name, List.mem_append_left _ hname⟩
    · obtain ⟨name, hname⟩ := h'.logged pc item hitem hop
      exact ⟨name, List.mem_append_right _ hname⟩
  callees call hcall := by
    rcases List.mem_append.mp hcall with hcall | hcall
    · obtain ⟨item, hitem, hcalls⟩ := h.callees call hcall
      exact ⟨item, stands_append.mpr (.inl hitem), hcalls.later h'.later⟩
    · obtain ⟨item, hitem, hcalls⟩ := h'.callees call hcall
      exact ⟨item, stands_append.mpr (.inr hitem), hcalls⟩

theorem jump {op : Opcode} {target : Nat} (hop : op = .jmp ∨ op = .jpc) (houter : outer target) :
    Fragment slack outer start [env.item op 0 target] functions functions [] [] := by
  apply single
  · rcases hop with rfl | rfl <;> simp
  · intro _
    exact ⟨target, rfl, houter⟩
  · rcases hop with rfl | rfl <;> simp

theorem plain (h : line.instruction.op ∈ [.lit, .lod, .sto, .ini, .cap, .ret]) :
    Fragment slack outer start [.line line] functions functions [] [] := by
  simp only [List.mem_cons, List.not_mem_nil, or_false] at h
  apply single
  · intro hop
    simp [hop] at h
  · rintro (hop | hop) <;> simp [hop] at h
  · intro hop
    simp [hop] at h

theorem operation {operator : Operator} :
    Fragment slack outer start [env.emit .opr 0 operator.operand] functions functions [] [] := by
  apply single
  · simp
  · simp
  · intro _
    exact ⟨operator, rfl⟩

section Jumps

variable {codeA codeB : List Item} {extentsA extentsB : List Extent}
  {callsA callsB : List (Nat × String)}

theorem choose
    (hA : Fragment 1 (fun _ => False) (start + 1) codeA functions functions₁ extentsA callsA)
    (hB : Fragment 1 (fun _ => False) (start + 1 + codeA.length + 1) codeB functions₁ functions₂
      extentsB callsB) :
    Fragment 1 (fun _ => False) start (choose env start codeA codeB) functions functions₂
      (extentsA ++ extentsB) (callsA ++ callsB) := by
  let leads (target : Nat) : Prop :=
    target = start + 1 + codeA.length + 1 ∨ target = start + 1 + codeA.length + 1 + codeB.length
  have hfirst : Fragment 1 leads start ([env.item .jpc 0 (start + 1 + codeA.length + 1 : Nat)]
      ++ codeA) functions functions₁ extentsA callsA :=
    (jump (.inr rfl) (.inl rfl)).append hA.weaken
  have hsecond : Fragment 1 leads (start + 1 + codeA.length)
      ([env.item .jmp 0 (start + 1 + codeA.length + 1 + codeB.length : Nat)] ++ codeB)
      functions₁ functions₂ extentsB callsB :=
    (jump (.inl rfl) (.inr rfl)).append hB.weaken
  have hall := hfirst.append (hsecond.placed (by simp; omega))
  rw [← List.append_assoc] at hall
  apply hall.redirect
  intro target htarget
  right
  have hbehind : owner? extentsA target = none := by
    apply hA.owner?_behind
    rcases htarget with rfl | rfl <;> omega
  rw [owner?_append, hbehind, Option.none_or]
  simp only [List.length_append, List.length_singleton]
  rcases htarget with rfl | rfl
  · exact ⟨by omega, by omega, hB.owner?_before (by omega)⟩
  · exact ⟨by omega, by omega, hB.owner?_behind (by omega)⟩

theorem loop
    (hA : Fragment 1 (fun _ => False) start codeA functions functions₁ extentsA callsA)
    (hB : Fragment 1 (fun _ => False) (start + codeA.length + 1) codeB functions₁ functions₂
      extentsB callsB) :
    Fragment 1 (fun _ => False) start
      (codeA ++ [env.item .jpc 0 (start + codeA.length + 1 + codeB.length + 1 : Nat)] ++ codeB
        ++ [env.item .jmp 0 start]) functions functions₂ (extentsA ++ extentsB)
      (callsA ++ callsB) := by
  let leads (target : Nat) : Prop :=
    target = start + codeA.length + 1 + codeB.length + 1 ∨ target = start
  have hexit : Fragment 1 leads (start + codeA.length)
      [env.item .jpc 0 (start + codeA.length + 1 + codeB.length + 1 : Nat)] functions₁ functions₁
      [] [] := jump (.inr rfl) (.inl rfl)
  have hback : Fragment 1 leads (start + codeA.length + 1 + codeB.length) [env.item .jmp 0 start]
      functions₂ functions₂ [] [] := jump (.inl rfl) (.inr rfl)
  have htest := hA.weaken.append hexit
  have hbody := hB.weaken.append hback
  have hall := htest.append (hbody.placed (by simp; omega))
  rw [← List.append_assoc, List.append_nil, List.append_nil, List.append_nil, List.append_nil]
    at hall
  apply hall.redirect
  intro target htarget
  right
  rw [owner?_append]
  simp only [List.length_append, List.length_singleton]
  rcases htarget with rfl | rfl
  · rw [hA.owner?_behind (by omega), hB.owner?_behind (by omega)]
    exact ⟨by omega, by omega, rfl⟩
  · rw [hA.owner?_before (by omega), hB.owner?_before (by omega)]
    exact ⟨by omega, by omega, rfl⟩

end Jumps

theorem function {name : String} {reserve ret : Line} (hreserve : reserve.instruction.op = .ini)
    (hret : ret.instruction.op = .ret)
    (h : Fragment 1 (fun _ => False) (start + 1) items (functions.insert name start) functions₁
      extents calls) :
    Fragment 0 (fun _ => False) start ([.line reserve] ++ items ++ [.line ret]) functions functions₁
      (extents ++ [⟨name, start, start + items.length + 2⟩]) calls := by
  have hall : Fragment 1 (fun _ => False) start ([.line reserve] ++ items ++ [.line ret])
      (functions.insert name start) functions₁ extents calls := by
    have hreserves : Fragment 1 (fun _ => False) start [.line reserve] (functions.insert name start)
      (functions.insert name start) [] [] := plain (by simp [hreserve])
    have hreturns : Fragment 1 (fun _ => False) (start + 1 + items.length) [.line ret] functions₁
      functions₁ [] [] := plain (by simp [hret])
    simpa using (hreserves.append h).append (hreturns.placed (by simp; omega))
  have hlength : ([Item.line reserve] ++ items ++ [Item.line ret]).length = items.length + 2 := by
    simp
  exact {
    later := (List.suffix_cons _ _).trans hall.later
    known := by
      intro f hf
      rcases hall.known f hf with hf | ⟨x, hx, hfx⟩
      · rcases List.mem_cons.mp hf with rfl | hf
        · exact .inr ⟨_, List.mem_append_right _ (List.mem_singleton.mpr rfl), rfl⟩
        · exact .inl hf
      · exact .inr ⟨x, List.mem_append_left _ hx, hfx⟩
    named := by
      intro x hx
      rcases List.mem_append.mp hx with hx | hx
      · exact hall.named x hx
      · cases List.mem_singleton.mp hx
        exact hall.later.subset List.mem_cons_self
    within := by
      intro x hx
      rw [hlength]
      rcases List.mem_append.mp hx with hx | hx
      · have := hall.within x hx
        omega
      · cases List.mem_singleton.mp hx
        exact ⟨Nat.le_refl _, by simp; omega, by simp; omega⟩
    nested := by
      apply List.pairwise_append.mpr ⟨hall.nested, List.pairwise_singleton _ _, ?_⟩
      intro x hx y hy
      cases List.mem_singleton.mp hy
      have := h.within x hx
      exact .inr (by simp; omega)
    opens := by
      intro x hx
      rcases List.mem_append.mp hx with hx | hx
      · exact hall.opens x hx
      · cases List.mem_singleton.mp hx
        exact ⟨reserve, by simp [Stands], hreserve⟩
    jumps := by
      intro pc line hline hop
      have hlt := hline.lt
      rw [hlength] at hlt ⊢
      -- neither the reservation nor the return is a jump
      have hbody : Stands (start + 1) items pc (.line line) := by
        rcases stands_append.mp hline with hline | hline
        · rcases stands_append.mp hline with hline | hline
          · obtain ⟨-, h⟩ := stands_singleton.mp hline
            cases h
            simp [hreserve] at hop
          · exact hline
        · obtain ⟨-, h⟩ := stands_singleton.mp hline
          cases h
          simp [hret] at hop
      obtain ⟨target, hoperand, ⟨⟨⟩, -⟩ | ⟨hle, hend, hsame⟩⟩ := h.jumps pc line hbody hop
      refine ⟨target, hoperand, .inr ⟨by omega, by omega, ?_⟩⟩
      rw [owner?_enclosed (by simp; omega) (by simp; omega),
        owner?_enclosed hline.1 (by simp; omega), hsame]
    operators := hall.operators
    logged := hall.logged
    callees := hall.callees }

theorem skipped
    (h : Fragment 0 (fun _ => False) (start + 1) items functions functions₁ extents calls) :
    Fragment 1 (fun _ => False) start (skipped env start items) functions functions₁ extents
      calls where
  later := h.later
  known := h.known
  named := h.named
  within x hx := by
    have := h.within x hx
    simp only [Codegen.skipped, List.length_cons]
    omega
  nested := h.nested
  opens x hx := by
    obtain ⟨line, hline, hop⟩ := h.opens x hx
    exact ⟨line, stands_skipped.mpr (.inr hline), hop⟩
  jumps pc line hline hop := by
    simp only [Codegen.skipped, List.length_cons]
    rcases stands_skipped.mp hline with ⟨rfl, hjmp⟩ | hline
    · cases hjmp
      refine ⟨_, rfl, .inr ⟨by omega, by omega, ?_⟩⟩
      rw [h.owner?_behind (Nat.le_refl _), h.owner?_before (by omega)]
    · obtain ⟨target, hoperand, ⟨⟨⟩, -⟩ | ⟨hle, hend, hsame⟩⟩ := h.jumps pc line hline hop
      exact ⟨target, hoperand, .inr ⟨by omega, by omega, hsame⟩⟩
  operators pc line hline hop := by
    rcases stands_skipped.mp hline with ⟨rfl, hjmp⟩ | hline
    · cases hjmp
      simp at hop
    · exact h.operators pc line hline hop
  logged pc item hitem hop := by
    rcases stands_skipped.mp hitem with ⟨rfl, rfl⟩ | hitem
    · simp [Env.item, Env.emit, Item.draft] at hop
    · exact h.logged pc item hitem hop
  callees call hcall := by
    obtain ⟨item, hitem, hcalls⟩ := h.callees call hcall
    exact ⟨item, stands_skipped.mpr (.inr hitem), hcalls⟩

end Fragment

end PCode.Codegen
