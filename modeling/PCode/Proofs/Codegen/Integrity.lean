import PCode.Proofs.Codegen.OnePass
import PCode.Proofs.Machine.Steps

namespace PCode.Codegen

/-- The instruction that an item becomes at the end. -/
def Item.Linked (functions : Table Nat) (i : Instruction) : Item → Prop
  | .line l => i = l.instruction
  | .forward _ level name _ =>
    ∃ entry : Nat, functions.get? name = some entry ∧ i = ⟨.cal, level, Int64.ofInt entry⟩

theorem link_get {functions : Table Nat} {items : List Item} {lines : List Line}
    (h : link functions items = .ok lines) (pc : Nat) (i : Instruction) :
    (lines.map Line.instruction)[pc]? = some i ↔
      ∃ item : Item, items[pc]? = some item ∧ item.Linked functions i := by
  induction items generalizing lines pc with
  | nil =>
    rw [link_nil] at h
    simp [h]
  | cons item items ih =>
    obtain ⟨first, rest, hline, hrest, rfl⟩ := link_cons.mp h
    have hfirst : ∀ j, item.Linked functions j ↔ j = first.instruction := by
      cases item with
      | line l =>
        cases hline
        exact fun j => Iff.rfl
      | forward owner level name span =>
        obtain ⟨entry, hentry, rfl⟩ := Option.map_eq_some_iff.mp hline
        simp [Item.Linked, hentry]
        rfl
    cases pc with
    | zero => simp [hfirst, eq_comm]
    | succ pc => simpa using ih hrest pc

/-- The items of a program around those of its functions. -/
def around (env : Env) (items : List Item) (main : Nat) : List Item :=
  [env.item .jmp 0 (1 + items.length : Nat)] ++ items ++ [env.item .cap 0 0, env.item .cal 0 main]

/-- The pass before the functions of a program. -/
def beginning : Assembly :=
  Assembly.put {} ⟨.jmp, 0, 0⟩

theorem stub_runs {s : Assembly} {items : List Item} (h : Emitted 0 beginning s items) (env : Env)
    (main : Nat) :
    ∃ s', s'.code = (around env items main).map Item.draft ∧ s'.image.strings = s.image.strings ∧
      s'.image.functions = s.image.functions ∧ s'.extents = s.extents ∧
      s'.calls = s.calls ++ [(1 + items.length + 1, "main")] ∧
      (do
        Emit.patchHere 0
        Emit.put .cap 0 0
        let index ← Emit.emit .cal 0 (Int64.ofInt main)
        Emit.change fun s => { s with calls := s.calls ++ [(index, "main")] }
        Emit.backpatch (← Emit.state).pending) s
          = Emit.backpatch (opened 0 (around env items main)) s' := by
  have hhere : s.image.here = 1 + items.length := h.here
  have hcode : s.code = [] ++ ⟨.jmp, 0, 0⟩ :: items.map Item.draft := h.code
  have hpending : s.pending = opened 0 (around env items main) := by
    have hopened : s.pending = [] ++ opened 1 items := h.noted.pending
    rw [hopened, around, opened_append, opened_append]
    simp [opened, Env.item, Env.emit]
  let s₁ := s.withCode (⟨.jmp, 0, Int64.ofInt s.image.here⟩ :: items.map Item.draft)
  -- the jump at the start of the code now leads behind the functions
  have hpatch : Emit.Writes s (Emit.patchHere 0) () s₁ := Emit.patchHere_writes hcode rfl
  let s₂ := s₁.put ⟨.cap, 0, 0⟩
  let s₃ := s₂.put ⟨.cal, 0, Int64.ofInt main⟩
  have hindex : s₂.image.here = 1 + items.length + 1 := by
    simp [s₂, s₁]
    omega
  refine ⟨{ s₃ with calls := s₃.calls ++ [(s₂.image.here, "main")] }, ?_, rfl, rfl, rfl, ?_, ?_⟩
  · show s₃.code = _
    simp [s₃, s₂, s₁, around, Item.draft, Env.item, Env.emit, hhere]
  · rw [hindex]
    rfl
  · rw [← hpending, Emit.bind_apply_ok hpatch.runs, Emit.bind_apply_ok Emit.put_writes.runs,
      Emit.bind_apply_ok Emit.emit_writes.runs]
    rfl

/-- A pass over a program that went through, with the items of its functions and the lines. -/
structure Assembled (context : Context) (program : Program) (s : Assembly) (items : List Item)
    (main : Nat) (lines : List Line) : Prop where
  listing : program.listing context = .ok ⟨lines, s.image.strings, s.image.functions⟩
  code : s.code = lines.map Line.instruction
  linked : link s.image.functions (around (hoist { context } program) items main) = .ok lines
  main : s.image.functions.get? "main" = some main
  fragment : ∃ calls, s.calls = calls ++ [(1 + items.length + 1, "main")] ∧
    Fragment 0 (fun _ => False) 1 items [] s.image.functions s.extents calls

theorem program_cases (context : Context) (program : Program) :
    (∃ s items main lines, Emit.program context program {} = some (.ok (), s) ∧
      Assembled context program s items main lines) ∨
    ∃ e s, Emit.program context program {} = some (.error e, s) ∧
      program.listing context = .error e := by
  let initial : Env := { context }
  let env := hoist initial program
  have henv : env.Bounded := by
    apply Env.Bounded.hoist
    refine ⟨?_, ?_⟩ <;> intro _ _ h <;> cases h
  have hjmp : Emit.Writes {} (Emit.emit .jmp 0 0) 0 beginning := Emit.emit_writes
  have hlevel : initial.level = beginning.level := rfl
  have hhoist : Emit.Writes beginning (Emit.hoist { context } program) env.flat beginning :=
    hoist_writes hlevel program
  have htop : Mirrors beginning (topLevel env 1 program) (Emit.topLevel env.flat program) _ :=
    topLevel_mirrors henv program hoist_level
  -- three things can fail, in this order: the functions, the search for `main`, an open call
  cases htop with
  | @error e s hgen hemit _ =>
    refine .inr ⟨e, s, ?_, ?_⟩
    · rw [Emit.program, Emit.bind_apply_ok hjmp.runs, Emit.bind_apply_ok hhoist.runs,
        Emit.bind_apply_error hemit]
    · rw [Program.listing]
      show (topLevel env 1 program beginning.frame >>= _) = _
      rw [hgen]
      rfl
  | @ok items _ s₂ hgen hemit hbefore hitems =>
    have hlisting : program.listing context = (do
        let main ← mainEntry env s₂.image.functions
        let lines ← link s₂.image.functions (around env items main)
        return ⟨lines, s₂.image.strings, s₂.image.functions⟩) := by
      rw [Program.listing]
      show (topLevel env 1 program beginning.frame >>= _) = _
      rw [hgen]
      rfl
    have hsettle : Emit.settle (mainEntry env.flat s₂.image.functions) s₂
        = some (mainEntry env s₂.image.functions, s₂) := rfl
    cases hmain : mainEntry env s₂.image.functions with
    | error e =>
      rw [hmain] at hsettle
      refine .inr ⟨e, s₂, ?_, ?_⟩
      · rw [Emit.program, Emit.bind_apply_ok hjmp.runs, Emit.bind_apply_ok hhoist.runs,
          Emit.bind_apply_ok hemit, Emit.bind_apply_ok Emit.state_writes.runs,
          Emit.bind_apply_error hsettle]
      · rw [hlisting, hmain]
        rfl
    | ok main =>
      rw [hmain] at hsettle
      obtain ⟨s₃, hcode, hstrings, hfunctions, hextents, hcalls, hstub⟩ := stub_runs hitems env main
      have hruns : Emit.program context program {}
          = Emit.backpatch (opened 0 (around env items main)) s₃ := by
        rw [Emit.program, Emit.bind_apply_ok hjmp.runs, Emit.bind_apply_ok hhoist.runs,
          Emit.bind_apply_ok hemit, Emit.bind_apply_ok Emit.state_writes.runs,
          Emit.bind_apply_ok hsettle]
        exact hstub
      have hlinked := backpatch_apply (around env items main) [] hcode
      rw [hfunctions] at hlinked
      rcases hlinked with ⟨lines, hlink, hpatched⟩ | ⟨e, s', hlink, hpatched⟩
      · refine .inl ⟨_, items, main, lines, hruns.trans hpatched, ?_⟩
        obtain ⟨extents, calls, hextents₂, hcalls₂, hfragment⟩ := hitems.noted.fragment
        exact {
          listing := by
            rw [hlisting, hmain]
            show (link s₂.image.functions (around env items main) >>= _) = _
            rw [hlink, ← hstrings, ← hfunctions]
            rfl
          code := by rw [Assembly.code_withCode, List.nil_append]
          linked := hfunctions ▸ hlink
          main := hfunctions ▸ (mainEntry_eq_ok hmain).1
          fragment := by
            refine ⟨calls, hcalls.trans (congrArg (· ++ _) hcalls₂), ?_⟩
            have hsame : s₃.extents = extents := hextents.trans hextents₂
            show Fragment 0 (fun _ => False) 1 items [] s₃.image.functions s₃.extents calls
            rw [hsame, hfunctions]
            exact hfragment }
      · refine .inr ⟨e, s', hruns.trans hpatched, ?_⟩
        rw [hlisting, hmain]
        show (link s₂.image.functions (around env items main) >>= _) = _
        rw [hlink]
        rfl

/-- What the code of a pass that went through is like. An address belongs to the innermost function
around it. -/
structure Assembly.Intact (s : Assembly) : Prop where
  /-- A jump leads to an instruction that belongs to the same function as the jump itself. -/
  jumps : ∀ (pc : Nat) (i : Instruction), s.image.code[pc]? = some i → i.op = .jmp ∨ i.op = .jpc →
    ∃ target : Nat, i.operand = Int64.ofInt target ∧ 1 ≤ target ∧ target < s.image.code.size ∧
      owner? s.extents target = owner? s.extents pc
  /-- A call leads to the entry of a function of its name. -/
  calls : ∀ (pc : Nat) (i : Instruction), s.image.code[pc]? = some i → i.op = .cal →
    ∃ x ∈ s.extents, (pc, x.name) ∈ s.calls ∧ i.operand = Int64.ofInt x.entry
  /-- A function starts with room for its variables, and its code is part of the whole. -/
  functions : ∀ x ∈ s.extents, 1 ≤ x.entry ∧ x.entry < x.stop ∧ x.stop ≤ s.image.code.size ∧
    (x.name, x.entry) ∈ s.image.functions ∧
    ∃ i, s.image.code[x.entry]? = some i ∧ i.op = .ini
  entries : ∀ f ∈ s.image.functions, ∃ x ∈ s.extents, f = (x.name, x.entry)
  /-- Functions do not overlap, unless one lies inside the other. -/
  nested : s.extents.Pairwise Extent.Precedes
  /-- Only calls are noted as calls. -/
  sites : ∀ call ∈ s.calls, ∃ i, s.image.code[call.1]? = some i ∧ i.op = .cal
  operators : ∀ (pc : Nat) (i : Instruction), s.image.code[pc]? = some i → i.op = .opr →
    ∃ operator, Operator.ofOperand? i.operand = some operator

namespace Assembled

variable {context : Context} {program : Program} {s : Assembly} {items : List Item} {main : Nat}
  {lines : List Line}

section

variable (h : Assembled context program s items main lines)
include h

theorem get (pc : Nat) (i : Instruction) :
    s.image.code[pc]? = some i ↔ ∃ item, Stands 0 (around (hoist { context } program) items main)
      pc item ∧ item.Linked s.image.functions i := by
  have hcode : s.image.code.toList = lines.map Line.instruction := h.code
  rw [← Array.getElem?_toList, hcode, link_get h.linked]
  simp [Stands]

theorem image : s.image = Listing.image ⟨lines, s.image.strings, s.image.functions⟩ := by
  have hcode : s.image.code = (lines.map Line.instruction).toArray := Array.ext' h.code
  rw [Listing.image, ← hcode]

theorem whole :
    Fragment 0 (fun target => target = 1 + items.length) 0
      (around (hoist { context } program) items main) [] s.image.functions s.extents s.calls := by
  obtain ⟨calls, hcalls, hfragment⟩ := h.fragment
  let env := hoist { context } program
  let leads (target : Nat) : Prop := target = 1 + items.length
  have hjmp : Fragment 0 leads 0 [env.item .jmp 0 (1 + items.length : Nat)] [] [] [] [] :=
    .jump (.inl rfl) rfl
  have hcap : Fragment 0 leads (1 + items.length) [env.item .cap 0 0] s.image.functions
      s.image.functions [] [] := .plain (by simp)
  have hcal : Fragment 0 leads (1 + items.length + 1) [env.item .cal 0 main] s.image.functions
      s.image.functions [] [(1 + items.length + 1, "main")] :=
    .call ⟨rfl, main, Table.mem_of_get? h.main, rfl⟩
  have hall := (hjmp.append hfragment.weaken).append
    ((hcap.append hcal).placed (by simp; omega))
  simp only [List.nil_append, List.append_nil] at hall
  rw [hcalls]
  exact hall

theorem size : s.image.code.size = items.length + 3 := by
  have hlength : s.code.length = s.image.code.size := Array.length_toList
  rw [← hlength, h.code, List.length_map, link_length h.linked, around]
  simp

end

theorem jumps (h : Assembled context program s items main lines) {pc : Nat} {i : Instruction}
    (hget : s.image.code[pc]? = some i) (hop : i.op = .jmp ∨ i.op = .jpc) :
    ∃ target : Nat, i.operand = Int64.ofInt target ∧ 1 ≤ target ∧ target < s.image.code.size ∧
      owner? s.extents target = owner? s.extents pc := by
  obtain ⟨calls, -, hfragment⟩ := h.fragment
  have hsize := h.size
  obtain ⟨item, hitem, hlinked⟩ := (h.get pc i).mp hget
  cases item with
  | forward owner level name span =>
    obtain ⟨entry, -, rfl⟩ := hlinked
    simp at hop
  | line l =>
    obtain rfl : i = l.instruction := hlinked
    rcases stands_append.mp hitem with hitem | hitem
    · rcases stands_append.mp hitem with hitem | hitem
      · obtain ⟨rfl, hjmp⟩ := stands_singleton.mp hitem
        cases hjmp
        refine ⟨1 + items.length, rfl, by omega, by omega, ?_⟩
        rw [hfragment.owner?_behind (Nat.le_refl _), hfragment.owner?_before (by omega)]
      · obtain ⟨target, hoperand, ⟨⟨⟩, -⟩ | ⟨hle, hlt, hsame⟩⟩ := hfragment.jumps pc l hitem hop
        exact ⟨target, hoperand, hle, by omega, hsame⟩
    · -- the call of `main` has no jumps
      have hstub := List.mem_of_getElem? hitem.2
      simp only [List.mem_cons, List.not_mem_nil, or_false] at hstub
      rcases hstub with hstub | hstub <;> cases hstub <;> simp at hop

variable (h : Assembled context program s items main lines)
include h

theorem entries {f : String × Nat} (hf : f ∈ s.image.functions) :
    ∃ x ∈ s.extents, f = (x.name, x.entry) := by
  rcases h.whole.known f hf with hnone | hsome
  · cases hnone
  · exact hsome

theorem callees {call : Nat × String} (hcall : call ∈ s.calls) : ∃ (i : Instruction) (entry : Nat),
      s.image.code[call.1]? = some i ∧ i.op = .cal ∧ i.operand = Int64.ofInt entry ∧
        (call.2, entry) ∈ s.image.functions := by
  obtain ⟨item, hitem, hcalls⟩ := h.whole.callees call hcall
  have hlt : call.1 < s.image.code.size := by
    have hlt := hitem.lt
    rw [h.size]
    simp only [around, List.length_append, List.length_cons, List.length_nil] at hlt
    omega
  have hget : s.image.code[call.1]? = some s.image.code[call.1] := Array.getElem?_eq_getElem hlt
  obtain ⟨item', hitem', hlinked⟩ := (h.get _ _).mp hget
  obtain rfl : item' = item := Option.some.inj (hitem'.2.symm.trans hitem.2)
  cases item' with
  | line l =>
    obtain ⟨hop, entry, hmem, hoperand⟩ := hcalls
    exact ⟨_, entry, hget.trans (congrArg some hlinked), hop, hoperand, hmem⟩
  | forward owner level name span =>
    obtain ⟨entry, hentry, hinstruction⟩ := hlinked
    obtain rfl : name = call.2 := hcalls
    exact ⟨_, entry, hget.trans (congrArg some hinstruction), rfl, rfl, Table.mem_of_get? hentry⟩

theorem intact : s.Intact where
  jumps pc i hget hop := h.jumps hget hop
  calls pc i hget hop := by
    obtain ⟨item, hitem, hlinked⟩ := (h.get pc i).mp hget
    have hdraft : item.draft.op = .cal := by
      cases item with
      | line l => rw [← hop, show i = l.instruction from hlinked]; rfl
      | forward => rfl
    obtain ⟨name, hlogged⟩ := h.whole.logged pc item hitem hdraft
    obtain ⟨i', entry, hget', -, hoperand, hmem⟩ := h.callees hlogged
    obtain rfl : i' = i := Option.some.inj (hget'.symm.trans hget)
    obtain ⟨x, hx, hentry⟩ := h.entries hmem
    cases hentry
    exact ⟨x, hx, hlogged, hoperand⟩
  functions x hx := by
    obtain ⟨calls, -, hfragment⟩ := h.fragment
    have hwithin := hfragment.within x hx
    have hsize := h.size
    obtain ⟨line, hline, hop⟩ := h.whole.opens x hx
    refine ⟨by omega, by omega, by omega, hfragment.named x hx, line.instruction, ?_, hop⟩
    exact (h.get x.entry line.instruction).mpr ⟨.line line, hline, rfl⟩
  entries f hf := h.entries hf
  nested := h.whole.nested
  sites call hcall := by
    obtain ⟨i, _, hget, hop, -⟩ := h.callees hcall
    exact ⟨i, hget, hop⟩
  operators pc i hget hop := by
    obtain ⟨item, hitem, hlinked⟩ := (h.get pc i).mp hget
    cases item with
    | forward owner level name span =>
      obtain ⟨entry, -, rfl⟩ := hlinked
      simp at hop
    | line l =>
      obtain rfl : i = l.instruction := hlinked
      obtain ⟨operator, hoperand⟩ := h.whole.operators pc l hitem hop
      exact ⟨operator, hoperand ▸ operator.ofOperand?_operand⟩

end Assembled

/-- In code that an operand can address, the operands of jumps and calls are addresses of it. -/
theorem Assembly.Intact.operand_range {s : Assembly} (h : s.Intact)
    (hsize : s.image.code.size ≤ 2 ^ 63) {pc : Nat} {i : Instruction}
    (hget : s.image.code[pc]? = some i) (hop : i.op.isJump = true) :
    1 ≤ i.operand.toInt ∧ i.operand.toInt < s.image.code.size := by
  have haddress : ∃ target : Nat, i.operand = Int64.ofInt target ∧ 1 ≤ target ∧
      target < s.image.code.size := by
    cases hi : i.op with
    | jmp =>
      obtain ⟨target, hoperand, hle, hlt, -⟩ := h.jumps pc i hget (.inl hi)
      exact ⟨target, hoperand, hle, hlt⟩
    | jpc =>
      obtain ⟨target, hoperand, hle, hlt, -⟩ := h.jumps pc i hget (.inr hi)
      exact ⟨target, hoperand, hle, hlt⟩
    | cal =>
      obtain ⟨x, hx, -, hoperand⟩ := h.calls pc i hget hi
      obtain ⟨hle, hlt, hstop, -⟩ := h.functions x hx
      exact ⟨x.entry, hoperand, hle, by omega⟩
    | _ => simp [hi, Opcode.isJump] at hop
  obtain ⟨target, hoperand, hle, hlt⟩ := haddress
  rw [hoperand, Int64.toInt_ofInt_of_le (by omega) (by omega)]
  omega

end PCode.Codegen

namespace PCode

open Codegen

/-- A checked program defines each name once, so a call has the entry that the table gives. -/
theorem Codegen.Assembled.resolved {context : Context} {program source : Program} {s : Assembly}
    {items : List Item} {main : Nat} {lines : List Line}
    (h : Assembled context program s items main lines)
    (hcheck : source.check .empty = .ok (program, context)) {call : Nat × String}
    (hcall : call ∈ s.calls) : ∃ (i : Instruction) (entry : Nat),
      s.image.code[call.1]? = some i ∧ i.op = .cal ∧ s.image.entry? call.2 = some entry ∧
        i.operand = Int64.ofInt entry := by
  have hlisting := h.listing
  simp only [Program.listing, bind_eq_ok_iff, Prod.exists] at hlisting
  obtain ⟨items', frame, hitems, main', hmain, lines', hlink, hL⟩ := hlisting
  obtain ⟨hnodup, -⟩ := Program.functions_generated (Program.check_eq_ok_iff.mp hcheck) hitems
  have hfunctions : frame.functions = s.image.functions :=
    congrArg Listing.functions (Except.ok.inj hL)
  rw [hfunctions] at hnodup
  obtain ⟨i, entry, hget, hop, hoperand, hmem⟩ := h.callees hcall
  exact ⟨i, entry, hget, hop, Table.get?_of_mem hnodup hmem, hoperand⟩

/-- One pass over a program is never stuck: it takes no difference below zero and replaces no
operand outside the code. It ends with the image that is compiled, or with the same error. The code
is intact, and in a checked program each call of a name has the entry of that name. -/
theorem Program.compile_intact (context : Context) (program : Program) :
    ∃ result s, Emit.program context program {} = some (result, s) ∧
      (result.map fun _ => s.image) = program.compile context ∧
      (result = .ok () → s.Intact ∧
        (s.image.code.size ≤ 2 ^ 63 → ∀ (pc : Nat) (i : Instruction),
          s.image.code[pc]? = some i → i.op.isJump = true →
          1 ≤ i.operand.toInt ∧ i.operand.toInt < s.image.code.size) ∧
        ∀ source : Program, source.check .empty = .ok (program, context) → ∀ call ∈ s.calls,
          ∃ (i : Instruction) (entry : Nat), s.image.code[call.1]? = some i ∧ i.op = .cal ∧
            s.image.entry? call.2 = some entry ∧ i.operand = Int64.ofInt entry) := by
  rcases program_cases context program with ⟨s, items, main, lines, hruns, h⟩ | ⟨e, s, hruns, h⟩
  · refine ⟨.ok (), s, hruns, ?_, ?_⟩
    · rw [Program.compile, h.listing, h.image]
      rfl
    · intro _
      refine ⟨h.intact, fun hsize pc i hget hop => h.intact.operand_range hsize hget hop, ?_⟩
      intro source hcheck call hcall
      exact h.resolved hcheck hcall
  · refine ⟨.error e, s, hruns, ?_, fun hok => by cases hok⟩
    rw [Program.compile, h]
    rfl

/-- A function inside `main`, behind a variable that is bound in front of the block, is called in a
loop, and calls a function that is defined behind it. -/
def nestedSource : Program :=
  let note : Note := ⟨.point 0, .unknown⟩
  let unary : Ty := .function [.i64] false .i64
  [.declare "later" unary note, .declare "inner" unary note,
    .declare "main" (.function [] false .i64) note,
    .defineBlock "main" [] [("i", .integer 0 note)]
      [.define "inner" ["x"] [] (.call "later" [.name "x" note] note) note,
        .loop (.binary .lt (.name "i" note) (.integer 3 note) note)
          [.expr (.assign (.name "i" note) (.call "inner" [.name "i" note] note) note) note] note,
        .ret (.name "i" note) note] note,
    .define "later" ["x"] [] (.binary .add (.name "x" note) (.integer 1 note) note) note]

theorem nestedSource_assembles : (match nestedSource.check .empty with
    | .ok (program, context) => match Emit.program context program {} with
      | some (.ok (), s) => decide (s.extents.map Extent.name = ["inner", "main", "later"]) &&
        decide (s.calls.map Prod.snd = ["later", "inner", "main"])
      | _ => false
    | .error _ => false) = true := by
  decide +kernel

theorem Program.compile_intact_nested : ∃ (program : Program) (context : Context) (s : Assembly),
    nestedSource.check .empty = .ok (program, context) ∧
      program.compile context = .ok s.image ∧ s.Intact ∧
      s.extents.map Extent.name = ["inner", "main", "later"] ∧
      s.calls.map Prod.snd = ["later", "inner", "main"] ∧
      ∀ call ∈ s.calls, ∃ (i : Instruction) (entry : Nat), s.image.code[call.1]? = some i ∧
        i.op = .cal ∧ s.image.entry? call.2 = some entry ∧ i.operand = Int64.ofInt entry := by
  have h := nestedSource_assembles
  split at h
  · rename_i program context hcheck
    obtain ⟨result, s, hruns, hcompile, hintact⟩ := Program.compile_intact context program
    rw [hruns] at h
    split at h
    · rename_i s' hs'
      cases hs'
      simp only [Bool.and_eq_true, decide_eq_true_eq] at h
      obtain ⟨hintact, -, hresolved⟩ := hintact rfl
      exact ⟨program, context, s, hcheck, hcompile.symm, hintact, h.1, h.2,
        hresolved nestedSource hcheck⟩
    · cases h
  · cases h

end PCode
