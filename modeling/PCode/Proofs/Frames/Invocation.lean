import PCode.Proofs.Codegen.Occurrences
import PCode.Proofs.Codegen.Owners
import PCode.Proofs.Evaluation.Programs
import PCode.Proofs.Frames.Relocation

namespace PCode

theorem Machine.pushAll_eq {m : Machine} {cells : List Cell}
    (h : m.top + cells.length ≤ m.memory.capacity) : m.pushAll cells = .ok
      { m with memory := m.memory.write m.top cells, top := m.top + cells.length } := by
  induction cells generalizing m with
  | nil => rfl
  | cons c cells ih =>
    rw [List.length_cons] at h
    rw [pushAll, push_eq, if_pos (by omega)]
    have hrest := @ih { m with memory := m.memory.put m.top c, top := m.top + 1 } (by simp; omega)
    rw [List.length_cons, Nat.add_comm cells.length, ← Nat.add_assoc]
    exact hrest

theorem Image.enter_eq {image : Image} {memory : Memory} {entry : Nat} {args : List Cell}
    (h : 3 + args.length ≤ memory.capacity) : image.enter memory entry args = .ok
      { memory := memory.write 0 (0 :: 0 :: .ofAddress image.code.size :: args)
        top := args.length + 3
        pc := entry } := by
  rw [enter, Machine.pushAll_eq (by simp [Machine.start]; omega)]
  simp only [Machine.start, List.length_cons, Nat.zero_add]
  rfl

end PCode

namespace PCode.Codegen

variable {L : Listing} {Δ : Context} {sites : Nat → Option Site}

section Halts

variable {o o' : Opening} {s s' depth : Nat} {callee : String} {m m' m₁ : Machine} {exit : Exit}
  {final : Memory} {n : Nat} {ret : Ty}

theorem Placed.of_ret {pc : Nat} {line : Line} {site : Site} (h : Placed L Δ sites pc line site)
    (hop : line.instruction.op = .ret) :
    ∃ name outer types variadic ret, site.path = name :: outer ∧
      Δ.function? name = some (.function types variadic ret) ∧
      line.instruction = ⟨.ret, 0, Int64.ofInt ret.size⟩ ∧
      (line.closing = false → headerSize + ret.size ≤ site.depth) := by
  cases h with
  | ret hpath _ hf _ hvalue =>
    refine ⟨_, _, _, _, _, hpath, hf, rfl, fun hopen => ?_⟩
    have hframe := @Listing.headerSize_le_frameSize L Δ site.path (by simp [hpath])
    exact Nat.le_trans (Nat.add_le_add_right hframe _) (hvalue hopen)
  | _ => cases hop

/-- The function at the bottom returns: the second run ends, and the first goes on in `main`, which
returns the same value and ends. -/
theorem Shifted.returns (h : Shifted L (Levels.frames [⟨o, some s⟩, ⟨o', some s'⟩]) m m')
    (hsound : Sound L Δ sites [⟨o, some s⟩, ⟨o', some s'⟩] depth m)
    (hground : Levels.Ground [⟨o, some s⟩, ⟨o', some s'⟩] callee)
    (hcells : m.memory.capacity < 2 ^ 63) (hlines : L.lines.length < 2 ^ 63) {owner : List String}
    (hback : L.lines[o.call + 1]? = some ⟨owner, ⟨.ret, 0, Int64.ofInt ret.size⟩, false⟩)
    (hlast : o'.call + 1 = L.lines.length)
    (hsize : Cell.toAddress (Int64.ofInt ret.size) = ret.size)
    (hvalue : headerSize + ret.size ≤ depth)
    (hfetch : L.image.code[m.pc]? = some ⟨.ret, 0, Int64.ofInt ret.size⟩)
    (hrun : m.runFor L.image.code n = .halted exit final) :
    ∃ k final' exit', k ≤ n ∧ m'.runFor L.image.code k = .halted exit' final' ∧
      exit'.stack = exit.stack ∧ exit.steps + m'.steps = exit'.steps + m.steps + 1 := by
  have hbases := hground
  simp only [Levels.Ground, Levels.frames, List.cons.injEq, StackFrame.mk.injEq, and_true] at hbases
  obtain ⟨⟨hthree, -⟩, hzero, -⟩ := hbases
  have hbase : m.base = 3 := hsound.base.trans hthree
  have hbase' : m'.base = 0 := by
    have := h.base
    omega
  have htop : m.top = m.base + depth + s := by
    rw [hsound.top, hsound.base]
    rfl
  have htop' := h.top
  have hroom := hsound.room
  have hcapacity := h.memory.capacity
  have hheader : headerSize = 3 := rfl
  have hcall := (List.getElem?_eq_some_iff.mp hback).1
  have hfetch' : L.image.code[m'.pc]? = some ⟨.ret, 0, Int64.ofInt ret.size⟩ := by rw [h.pc, hfetch]
  -- what the headers of the two frames hold
  have hcaller : m.memory.cell (m.base + 1) = .ofAddress 0 := by
    have hcell := hsound.standing.2.caller
    rw [show Levels.base [⟨o', some s'⟩] = 0 from hzero] at hcell
    rw [hbase, ← hthree]
    exact hcell
  have hreturn : m.memory.cell (m.base + 2) = .ofAddress (o.call + 1) := by
    rw [hbase, ← hthree]
    exact (hsound.standing.2.entered rfl).1
  have hend : m.memory.cell 2 = .ofAddress L.lines.length := by
    have hcell := (hsound.standing.1.2.entered rfl).1
    simp only [hzero, hlast] at hcell
    exact hcell
  have hend' : m'.memory.cell (m'.base + 2) = .ofAddress L.lines.length := by
    rw [hbase']
    exact h.memory.bottom
  have hresult : m'.memory.read (m'.top - ret.size) ret.size
      = m.memory.read (m.top - ret.size) ret.size := by
    rw [show m.top - ret.size = m'.top - ret.size + 3 by omega]
    apply h.memory.read (by omega) _ (by omega)
    intro frame hframe i hi
    have hlt := hsound.link_lt hframe hi
    have hedge := hground.edge_eq
    omega
  have hstep := Machine.step_ret hfetch (by omega) (by omega) (by omega)
  have hstep' := Machine.step_ret hfetch' (by omega) (by omega) (by omega)
  rw [hsize, hcaller, hreturn, hbase, Cell.toAddress_ofAddress (by omega),
    Cell.toAddress_ofAddress (by omega)] at hstep
  rw [hsize, hend', hresult, hbase', Cell.toAddress_ofAddress (by omega)] at hstep'
  have hlength : (m.memory.read (m.top - ret.size) ret.size).length = ret.size := Memory.length_read
  generalize m.memory.read (m.top - ret.size) ret.size = result at hstep hstep' hlength
  obtain ⟨k, rfl, hrest⟩ := Machine.halted_step hrun hstep
  -- `main` finds the result on top of its header
  have hlater := Machine.step_ret (Listing.fetch hback)
    (m := ⟨m.memory.write 3 result, 3 + ret.size, 0, m.next, o.call + 1, m.steps + 1⟩)
    (by simp; omega) (by simp; omega) (by simp; omega)
  simp only [hsize, Memory.cell_write_of_lt (show 0 + 2 < 3 by omega), Nat.zero_add, hend,
    Cell.toAddress_ofAddress (show L.lines.length < 2 ^ 64 by omega), Nat.add_sub_cancel] at hlater
  obtain ⟨k, rfl, hlast⟩ := Machine.halted_step hrest hlater
  obtain rfl := Machine.halted_behind hlast (by simp)
  have hrun' := (Machine.runFor_succ (n := 0) hstep').trans (Machine.runFor_behind (by simp))
  refine ⟨1, _, _, by omega, hrun', ?_, ?_⟩
  · simp only [Machine.exit, Nat.zero_add, ← hlength, Memory.read_write_self]
  · simp only [Machine.exit]
    omega

/-- Where the first run halts, the second halts with the same stack. -/
theorem Shifted.halts (hmap : StackMap L Δ sites) (hwords : L.WordSized Δ)
    (hmain : Owned (fun path => ∀ j, 0 < j → path.drop j ≠ ["main"]) L.lines)
    (hground : Levels.Ground [⟨o, some s⟩, ⟨o', some s'⟩] callee)
    (hback : ∀ {types variadic ret}, Δ.function? callee = some (.function types variadic ret) →
      ∃ owner, L.lines[o.call + 1]? = some ⟨owner, ⟨.ret, 0, Int64.ofInt ret.size⟩, false⟩)
    (hlast : o'.call + 1 = L.lines.length) {inner : Levels}
    (h : Shifted L (Levels.frames (inner ++ [⟨o, some s⟩, ⟨o', some s'⟩])) m m')
    (hsound : Sound L Δ sites (inner ++ [⟨o, some s⟩, ⟨o', some s'⟩]) depth m)
    (hcells : m.memory.capacity < 2 ^ 63)
    (hclosing : ∀ m₁ line, m.Reaches L.image.code m₁ → L.lines[m₁.pc]? = some line →
      line.closing = false)
    (hrun : m.runFor L.image.code n = .halted exit final) :
    ∃ k final' exit', k ≤ n ∧ m'.runFor L.image.code k = .halted exit' final' ∧
      exit'.stack = exit.stack ∧ exit.steps + m'.steps = exit'.steps + m.steps + 1 := by
  induction n using Nat.strongRecOn generalizing inner depth m m' with
  | ind n ih =>
    rcases Machine.halted_cases hrun with ⟨hpc, _⟩ | ⟨k, m₁, rfl, hstep, hrest⟩
    · -- a function runs, so there is code at the address of the next instruction
      rw [Listing.size_code] at hpc
      exact absurd (hmap.behind (List.getElem?_eq_none hpc) hsound.site) hground.path_ne_nil
    · have hpc := Machine.lt_size_of_step hstep
      rw [Listing.size_code] at hpc
      obtain ⟨line, hline⟩ : ∃ line, L.lines[m.pc]? = some line := ⟨_, List.getElem?_eq_getElem hpc⟩
      have hopen := hclosing m line .refl hline
      by_cases hret : line.instruction.op = .ret ∧ inner = []
      · obtain ⟨hop, rfl⟩ := hret
        obtain ⟨name, outer, types, variadic, ret, hpath, hf, hinstruction, hvalue⟩ :=
          (hmap.placed hline hsound.site).of_ret hop
        have hfetch := Listing.fetch hline
        rw [hinstruction] at hfetch
        obtain ⟨-, _, ⟨_, _, _, _, -, hentry, -⟩, -⟩ := hsound.standing.2.entered rfl
        obtain ⟨hcallee, -⟩ : o.callee = name ∧ o.outer = outer := by
          simpa [Levels.site, Levels.path] using hpath
        obtain rfl : name = callee := by
          simp only [Levels.Ground, Levels.frames, List.cons.injEq, StackFrame.mk.injEq,
            Option.map_some, Option.some.injEq] at hground
          rw [← hcallee, hground.1.2.1]
        subst hcallee
        obtain ⟨owner, hmainBack⟩ := hback hf
        exact h.returns hsound hground hcells hwords.lines hmainBack hlast
          (Cell.toAddress_ofInt (hwords.results hentry hf)) (hvalue hopen) hfetch hrun
      · obtain ⟨m₁', hstep', hshifted⟩ := h.step hsound hground hmap hwords hcells hline
          (hmain line (List.mem_of_getElem? hline)) hopen (fun hop hnil => hret ⟨hop, hnil⟩) hstep
        obtain ⟨line', levels₁, depth₁, hline', hsound₁, hframes, hcapacity, hmoves, -⟩ :=
          hsound.step hmap hwords hcells
            (Listing.next?_eq_some_iff.mpr ⟨line, hline, hstep, rfl⟩)
        obtain rfl : line = line' := Option.some.inj (hline.symm.trans hline')
        rcases hmoves.keeps rfl with ⟨inner₁, rfl⟩ | ⟨hnil, hop⟩
        · rw [← hframes] at hshifted
          obtain ⟨j, final', exit', hle, hrun', hstack, hsteps⟩ := ih k (by omega) hshifted hsound₁
            (by omega) (fun m₂ line₂ hreaches => hclosing m₂ line₂ (.head hstep hreaches)) hrest
          obtain ⟨-, hcount⟩ := Machine.step_keeps hstep
          obtain ⟨-, hcount'⟩ := Machine.step_keeps hstep'
          refine ⟨j + 1, final', exit', by omega, ?_, hstack, by omega⟩
          rw [Machine.runFor_succ hstep']
          exact hrun'
        · exact absurd ⟨hop, hnil⟩ hret

end Halts

section Visits

variable {frames frames' : List StackFrame} {m m' m₁ : Machine} {memory : Memory} {exit : Exit}
  {line : Line}

theorem Listing.Runs.snoc {m₀ : Machine} {frames₀ : List StackFrame}
    (h : L.Runs frames₀ m₀ frames m)
    (hnext : L.next? frames m = some (frames', m')) : L.Runs frames₀ m₀ frames' m' := by
  induction h with
  | refl => exact .step hnext .refl
  | step hfirst _ ih => exact .step hfirst (ih hnext)

/-- A state of a run that halts. -/
structure Visits (L : Listing) (memory : Memory) (exit : Exit) (frames : List StackFrame)
    (m : Machine) : Prop where
  runs : L.Runs [] (.start memory) frames m
  halts : ∃ n ≤ Machine.stepLimit, ∃ final, m.runFor L.image.code n = .halted exit final

theorem Visits.next (h : Visits L memory exit frames m) (hline : L.lines[m.pc]? = some line)
    (hstep : m.step L.image.code = .ok m₁) :
    Visits L memory exit (L.track m line.instruction frames) m₁ := by
  obtain ⟨n, hn, final, hrun⟩ := h.halts
  obtain ⟨k, rfl, hrest⟩ := Machine.halted_step hrun hstep
  exact ⟨h.runs.snoc (Listing.next?_eq_some_iff.mpr ⟨line, hline, hstep, rfl⟩), k, by omega, final,
    hrest⟩

theorem Visits.not_faults (h : Visits L memory exit frames m) : ¬ m.Faults L.image.code := by
  intro hfault
  obtain ⟨n, _, final, hrun⟩ := h.halts
  have hpc := hfault.lt_size
  obtain ⟨memory', hfault⟩ := hfault
  rcases Machine.halted_cases hrun with ⟨hpc', _⟩ | ⟨_, m₁, _, hstep, _⟩
  · omega
  · rw [hfault] at hstep
    cases hstep

/-- The lines that push literals. -/
def literalLines (owner : List String) (cells : List Cell) : List Line :=
  cells.map fun c => ⟨owner, ⟨.lit, 0, c⟩, false⟩

theorem Visits.literals {owner : List String} {cells : List Cell}
    (h : Visits L memory exit frames m) (hholds : L.Holds m.pc (literalLines owner cells))
    (hroom : m.top ≤ m.memory.capacity) :
    m.top + cells.length ≤ m.memory.capacity ∧ Visits L memory exit frames
      { m with
        memory := m.memory.write m.top cells
        top := m.top + cells.length
        pc := m.pc + cells.length
        steps := m.steps + cells.length } := by
  induction cells generalizing m with
  | nil => exact ⟨hroom, h⟩
  | cons c cells ih =>
    have hholds : L.Holds m.pc (⟨owner, ⟨.lit, 0, c⟩, false⟩ :: literalLines owner cells) := hholds
    rw [holds_cons] at hholds
    have hfetch := Listing.fetch hholds.1
    have hfree : m.top < m.memory.capacity :=
      Decidable.byContradiction fun hfull => h.not_faults (Machine.faults_lit hfetch (by omega))
    obtain ⟨hroom', hvisits⟩ := ih (h.next hholds.1 (Machine.step_lit hfetch hfree)) hholds.2
      (by simpa using Nat.succ_le_of_lt hfree)
    simp only [Machine.moved, Memory.capacity_put] at hroom' hvisits
    rw [List.length_cons, Nat.add_comm cells.length, ← Nat.add_assoc, ← Nat.add_assoc,
      ← Nat.add_assoc]
    exact ⟨hroom', hvisits⟩

/-- A call has been made from `m`: its frame lies on top of the stack, with the arguments behind the
header. -/
structure Called (m : Machine) (link call entry : Nat) (args : List Cell) (m₁ : Machine) :
    Prop where
  capacity : m₁.memory.capacity = m.memory.capacity
  room : m.top + 3 + args.length ≤ m.memory.capacity
  top : m₁.top = m.top + 3 + args.length
  base : m₁.base = m.top
  next : m₁.next = m.next
  pc : m₁.pc = entry
  steps : m₁.steps = m.steps + args.length + 2
  below : ∀ i < m.top, m₁.memory.cell i = m.memory.cell i
  link : m₁.memory.cell m.top = .ofAddress link
  caller : m₁.memory.cell (m.top + 1) = .ofAddress m.base
  back : m₁.memory.cell (m.top + 2) = .ofAddress (call + 1)
  args : ∀ i c, args[i]? = some c → m₁.memory.cell (m.top + 3 + i) = c

theorem Visits.call (h : Visits L memory exit frames m) {level link entry : Nat}
    {owner : List String}
    {c : Cell} {args : List Cell} (hlink : Machine.follow? m.memory level m.base = some link)
    (hholds : L.Holds m.pc ([⟨owner, ⟨.cap, level, c⟩, false⟩] ++ literalLines owner args
      ++ [⟨owner, ⟨.cal, level, Int64.ofInt entry⟩, false⟩]))
    (hentry : entry < 2 ^ 64) (hnext : m.next < 2 ^ 64) :
    ∃ m₁, Visits L memory exit (⟨m.top, (L.lines[entry]?).map Line.owner⟩ :: frames) m₁ ∧
      Called m link (m.pc + 1 + args.length) entry args m₁ := by
  have hlength : (literalLines owner args).length = args.length := List.length_map ..
  rw [holds_append, holds_append, holds_singleton, holds_singleton, List.length_append, hlength,
    List.length_singleton, ← Nat.add_assoc] at hholds
  obtain ⟨⟨hcap, hliterals⟩, hcal⟩ := hholds
  have hfree : m.top + 3 ≤ m.memory.capacity := Decidable.byContradiction fun hfull =>
    h.not_faults (Machine.faults_cap hlink (Listing.fetch hcap) (by omega))
  have hopened := h.next hcap (Machine.step_cap hlink (Listing.fetch hcap) hfree)
  obtain ⟨hroom, hpushed⟩ := hopened.literals hliterals (by simpa using hfree)
  simp only [Machine.moved, Memory.capacity_put] at hroom hpushed
  have hentered := hpushed.next hcal (Machine.step_cal (Listing.fetch hcal) (by simp; omega))
  simp only [Listing.track, Cell.toAddress_ofInt hentry] at hentered
  refine ⟨_, hentered, ?_⟩
  -- neither the arguments nor the return address touch the rest of the header
  have hheader : ∀ i < m.top + 2, ∀ memory : Memory, ∀ c : Cell,
      ((memory.write (m.top + 3) args).put (m.top + 2) c).cell i = memory.cell i := by
    intro i hi memory c
    rw [Memory.cell_put_of_ne (by omega), Memory.cell_write_of_lt (by omega)]
  constructor
  · simp
  · exact hroom
  · rfl
  · rfl
  · show Cell.toAddress _ = m.next
    rw [Memory.cell_write_of_lt (by omega), Memory.cell_put_self, Cell.toAddress_ofAddress hnext]
  · rfl
  · show m.steps + 1 + args.length + 1 = _
    omega
  · intro i hi
    rw [hheader i (by omega), Memory.cell_put_of_ne (by omega), Memory.cell_put_of_ne (by omega),
      Memory.cell_put_of_ne (by omega)]
  · rw [hheader _ (by omega), Memory.cell_put_of_ne (by omega), Memory.cell_put_of_ne (by omega),
      Memory.cell_put_self]
  · rw [hheader _ (by omega), Memory.cell_put_of_ne (by omega), Memory.cell_put_self]
  · exact Memory.cell_put_self
  · intro i c hi
    rw [Memory.cell_put_of_ne (by omega)]
    exact Memory.cell_write hi

end Visits

section Main

variable {callee : String}

theorem Listing.Calls.lt {call : Nat} {ret : Ty} (h : L.Calls Δ call callee ret) :
    call < L.lines.length := by
  obtain ⟨_, _, _, _, hfetch, -, -⟩ := h
  rw [← Listing.size_code]
  exact (Array.getElem?_eq_some_iff.mp hfetch).1

theorem EmitsExprs.literals {env : Env} {start f f' : Nat} {args : List (Cell × Note)}
    {lines : List Line}
    (h : EmitsExprs L env start f (args.map fun a => .integer a.1 a.2) lines f') :
    lines = literalLines env.path (args.map Prod.fst) ∧ f' = f := by
  induction args generalizing start f lines with
  | nil =>
    cases h
    exact ⟨rfl, rfl⟩
  | cons arg args ih =>
    cases h with
    | cons hfirst hrest =>
      cases hfirst with
      | integer _ =>
        obtain ⟨rfl, rfl⟩ := ih hrest
        exact ⟨rfl, rfl⟩
      | place hplace => cases hplace

/-- The code of a program whose `main` returns what a call with literal arguments returns: the code
in front of `main` at `stub`, that of `main`, and the entry of the callee. -/
structure MainCalls (L : Listing) (Δ : Context) (callee : String) (args : List Cell) (ret : Ty)
    (stub main entry : Nat) : Prop where
  jumps : L.lines[0]? = some ⟨[], ⟨.jmp, 0, Int64.ofInt stub⟩, false⟩
  starts : L.Holds stub ([⟨[], ⟨.cap, 0, 0⟩, false⟩] ++ literalLines [] []
    ++ [⟨[], ⟨.cal, 0, Int64.ofInt main⟩, false⟩])
  length : L.lines.length = stub + 2
  body : L.Holds main ([⟨["main"], ⟨.ini, 0, Int64.ofInt (0 : Nat)⟩, false⟩]
    ++ ([⟨["main"], ⟨.cap, 1, 0⟩, false⟩] ++ literalLines ["main"] args
      ++ [⟨["main"], ⟨.cal, 1, Int64.ofInt entry⟩, false⟩])
    ++ [⟨["main"], ⟨.ret, 0, Int64.ofInt ret.size⟩, false⟩])
  enters : L.functions.get? callee = some entry
  type : ∃ types variadic, Δ.function? callee = some (.function types variadic ret)
  owner : (L.lines[entry]?).map Line.owner = some [callee]

theorem EmitsProgram.mainCalls {program : Program} (h : EmitsProgram L Δ program)
    (hcallee : callee ∈ Stmt.definedIn program) (hordinary : Δ.isConstructor callee = false)
    {args : List (Cell × Note)} {n n' : Note}
    (hmain :
      .define "main" [] [] (.call callee (args.map fun a => .integer a.1 a.2) n) n' ∈ program) :
    ∃ ret stub main entry, MainCalls L Δ callee (args.map Prod.fst) ret stub main entry := by
  obtain @⟨env, functions, call, ret, henv, htop, hcall, hlines⟩ := h
  have hpath : env.path = [] := by rw [henv, hoist_path]
  have hlevel : env.level = 0 := by rw [henv, hoist_level]; rfl
  have hcontext : env.context = Δ := by rw [henv, hoist_context]
  have hfuns : env.funs.get? callee = some 0 := by
    rw [henv, hoist_funs, if_pos (Stmt.mem_definedIn.mp hcallee)]
    rfl
  have hholds : L.Holds 0 ([env.line .jmp 0 (Int64.ofInt (1 + functions.length : Nat))] ++ functions
      ++ call) := by
    rw [← hlines]
    intro i line hi
    rw [Nat.zero_add]
    exact hi
  rw [holds_append, holds_append, holds_singleton] at hholds
  obtain ⟨⟨hfirst, hfunctions⟩, hstub⟩ := hholds
  simp only [List.length_append, List.length_singleton, Nat.zero_add] at hfunctions hstub
  -- the entry of the callee is the first line of its code
  obtain ⟨s, hs, hname⟩ := List.mem_filterMap.mp hcallee
  obtain ⟨⟨_, params, body⟩, hdefinition, rfl⟩ := Option.map_eq_some_iff.mp hname
  obtain ⟨entry, a, hfunction, ha⟩ := htop.function_of_mem hfunctions hs hdefinition
  obtain ⟨main, b, hmainCode, hb⟩ := htop.function_of_mem hfunctions hmain rfl
  obtain ⟨_, _, hentry, _⟩ := hfunction
  obtain @⟨_, _, _, _, _, types, _, ret', _, _, _, _, hparams, hmainEntry, hbody⟩ := hmainCode
  obtain rfl : types = [] := List.eq_nil_of_length_eq_zero hparams.symm
  obtain ⟨_, _, _, hmainEntry', hnone⟩ := hcall
  cases hnone
  have hsame' := Option.some.inj (hmainEntry'.symm.trans hmainEntry)
  cases hbody with
  | value hlocals hvalue hty =>
    cases hlocals
    cases hvalue with
    | place hplace => cases hplace
    | construct _ hconstructor _ _ =>
      have hconstructor : env.context.isConstructor _ = true := hconstructor
      rw [hcontext, hordinary] at hconstructor
      cases hconstructor
    | call _ _ hcalls =>
      obtain ⟨hfuns', hf, _, hentry', hargs⟩ := hcalls
      obtain ⟨rfl, rfl⟩ := hargs.literals
      have hlevel' := Option.some.inj (hfuns'.symm.trans hfuns)
      have hsame := Option.some.inj (hentry'.symm.trans hentry)
      refine ⟨n.ty, 1 + functions.length, main, entry, ?_, ?_, ?_, ?_, hentry,
        ⟨_, _, hcontext ▸ hf⟩, ?_⟩
      · rw [hfirst, Env.line, hpath]
      · simpa [Env.line, hpath, hlevel, literalLines, hsame'] using hstub
      · rw [hlines]
        simp
        omega
      · have hty : n.ty = ret' := hty
        simpa [Env.line, Env.withParams, Env.inside, Env.level, hpath, hlevel', hsame, hty] using hb
      · rw [holds_append, holds_append, holds_singleton] at ha
        rw [ha.1.1, Option.map_some, Env.line, Env.inside, hpath]

theorem MainCalls.returns {args : List Cell} {ret : Ty} {stub main entry : Nat}
    (h : MainCalls L Δ callee args ret stub main entry) :
    L.lines[main + 2 + args.length + 1]?
      = some ⟨["main"], ⟨.ret, 0, Int64.ofInt ret.size⟩, false⟩ := by
  have hbody := h.body
  rw [holds_append, holds_singleton] at hbody
  rw [← hbody.2]
  simp only [literalLines, List.length_append, List.length_map, List.length_singleton]
  congr 1
  omega

theorem MainCalls.visits {args : List Cell} {ret : Ty} {stub main entry : Nat} {memory : Memory}
    {exit : Exit} (h : MainCalls L Δ callee args ret stub main entry)
    (hstart : Visits L memory exit [] (.start memory)) (hlines : L.lines.length < 2 ^ 63) :
    ∃ m m₁, Visits L memory exit [⟨3, some [callee]⟩, ⟨0, some ["main"]⟩] m₁ ∧
      Called m 0 (main + 2 + args.length) entry args m₁ ∧ m.memory.capacity = memory.capacity ∧
      m.top = 3 ∧ m.base = 0 ∧ m.next = 0 ∧ m.steps = 4 ∧
      m.memory.cell 2 = .ofAddress L.lines.length := by
  have hbody := h.body
  rw [holds_append, holds_append, holds_singleton] at hbody
  obtain ⟨⟨hreserve, hcall⟩, -⟩ := hbody
  have hmain := (List.getElem?_eq_some_iff.mp hreserve).1
  have hentry : entry < L.lines.length := by
    obtain ⟨line, hline, -⟩ := Option.map_eq_some_iff.mp h.owner
    exact (List.getElem?_eq_some_iff.mp hline).1
  have hlength := h.length
  -- to the code in front of `main`, and into `main`
  have hjumped := hstart.next h.jumps (Machine.step_jmp (Listing.fetch h.jumps))
  rw [Cell.toAddress_ofInt (by omega)] at hjumped
  obtain ⟨m₂, hentered, hcalled⟩ := hjumped.call rfl h.starts (by omega) (Nat.two_pow_pos 64)
  rw [hreserve] at hentered
  -- `main` has no variables, so nothing is reserved
  rw [← hcalled.pc] at hreserve
  have hfree : m₂.top + 0 ≤ m₂.memory.capacity := by
    rw [hcalled.top, hcalled.capacity]
    exact hcalled.room
  have hready := hentered.next hreserve
    (Machine.step_reserve (Listing.fetch hreserve) (Cell.toInt_ofInt (by omega) (by omega)) hfree)
  have hlink : Machine.follow? m₂.memory 1 m₂.base = some 0 := by
    have hcell : m₂.memory.cell m₂.base = .ofAddress 0 := by
      rw [hcalled.base]
      exact hcalled.link
    have hroom := hcalled.room
    rw [← hcalled.capacity] at hroom
    have hbase : m₂.base = 0 := hcalled.base
    rw [Machine.follow?, Memory.get?_eq, if_pos (by rw [hbase]; omega), hcell]
    rfl
  have hpc : m₂.pc = main := hcalled.pc
  obtain ⟨m₄, hvisits, hcalled'⟩ := hready.call hlink
    (by rw [← hpc] at hcall; exact hcall) (by omega)
    (by rw [Machine.moved_next, hcalled.next]; exact Nat.two_pow_pos 64)
  refine ⟨m₂.moved m₂.memory m₂.top, m₄, ?_, ?_, hcalled.capacity, hcalled.top, hcalled.base,
    hcalled.next, ?_, ?_⟩
  · have htop : m₂.top + 0 = 3 := hcalled.top
    rw [h.owner, Machine.moved_top, htop] at hvisits
    exact hvisits
  · rw [Machine.moved_pc, hpc] at hcalled'
    exact hcalled'
  · show m₂.steps + 1 = 4
    rw [hcalled.steps]
    rfl
  · have hback : m₂.memory.cell 2 = .ofAddress (stub + 1 + 0 + 1) := hcalled.back
    rw [hlength]
    exact hback

end Main

theorem Called.shifted {callee : String} {args : List Cell} {entry call : Nat} {m m₁ : Machine}
    {memory : Memory} (h : Called m 0 call entry args m₁) (htop : m.top = 3) (hbase : m.base = 0)
    (hnext : m.next = 0) (hcapacity : memory.capacity = m.memory.capacity) :
    ∃ m', L.image.enter memory entry args = .ok m' ∧ m'.steps = 0 ∧
      Shifted L [⟨3, some [callee]⟩, ⟨0, some ["main"]⟩] m₁ m' := by
  have hroom := h.room
  have hlink := h.link
  have hcaller := h.caller
  have hargs := h.args
  rw [htop] at hlink hcaller hargs
  have hstack : ∀ i c, (0 :: 0 :: Cell.ofAddress L.image.code.size :: args)[i]? = some c →
      (memory.write 0 (0 :: 0 :: .ofAddress L.image.code.size :: args)).cell i = c := by
    intro i c hi
    rw [← Nat.zero_add i]
    exact Memory.cell_write hi
  refine ⟨_, Image.enter_eq (by omega), rfl, ⟨?_, ?_, ?_, ?_⟩, ?_, ?_, ?_, h.pc.symm⟩
  · rw [Memory.capacity_write, hcapacity, h.capacity]
  · intro frame hframe i hi
    have hheader := hi.header
    unfold StackFrame.Link at hi
    simp only [List.mem_cons, List.not_mem_nil, or_false] at hframe
    rcases hframe with rfl | rfl
    · simp only [reduceCtorEq, and_false, or_false] at hi
      rcases hi with hi | hi
      · obtain rfl : i = 0 := by omega
        rw [hlink]
        exact hstack 0 0 rfl
      · obtain rfl : i = 1 := by omega
        rw [hcaller, hbase]
        exact hstack 1 0 rfl
    · have hlt : i + 3 < 0 + 3 := hheader.2
      omega
  · intro i hi hbottom hnot
    have hplain := hnot _ List.mem_cons_self
    unfold StackFrame.Link at hplain
    simp only [reduceCtorEq, and_false, or_false] at hplain hi
    obtain ⟨j, rfl⟩ : ∃ j, i = j + 3 := ⟨i - 3, by omega⟩
    have hj : args[j]? = some args[j] := List.getElem?_eq_getElem (by omega)
    rw [show j + 3 + 3 = 3 + 3 + j by omega, hargs j _ hj]
    exact hstack (j + 3) _ (by simp)
  · rw [← Listing.size_code]
    exact hstack 2 _ rfl
  · show m₁.top = args.length + 3 + 3
    rw [h.top, htop]
    omega
  · rw [h.base, htop]
  · rw [h.next, hnext]

theorem Called.levels_eq {callee : String} {args : List Cell} {entry call depth : Nat}
    {m m₁ : Machine} {levels : Levels} (h : Called m 0 call entry args m₁) (htop : m.top = 3)
    (hend : m.memory.cell 2 = .ofAddress L.lines.length) (hcall : call + 1 < L.lines.length)
    (hlines : L.lines.length < 2 ^ 63) (hsound : Sound L Δ sites levels depth m₁)
    (hframes : levels.frames = [⟨3, some [callee]⟩, ⟨0, some ["main"]⟩]) :
    ∃ (o o' : Opening) (s s' : Nat), levels = [⟨o, some s⟩, ⟨o', some s'⟩] ∧ o.call = call ∧
      o'.call + 1 = L.lines.length := by
  obtain ⟨o, s, rest, rfl, hthree, -, hrest⟩ := Levels.eq_of_frames hframes
  obtain ⟨o', s', rest', rfl, hbottom, -, hnil⟩ := Levels.eq_of_frames hrest
  obtain rfl : rest' = [] := by
    cases rest' with
    | nil => rfl
    | cons => cases hnil
  -- a level knows its call by the return address in its header
  obtain ⟨hback, _, hcalls, -⟩ := hsound.standing.2.entered rfl
  obtain ⟨hback', _, hcalls', -⟩ := hsound.standing.1.2.entered rfl
  have hlt : o.call < _ := hcalls.lt
  have hlt' : o'.call < _ := hcalls'.lt
  refine ⟨o, o', s, s', rfl, ?_, ?_⟩
  · have hcell := h.back
    rw [htop, ← hthree] at hcell
    have hsame : o.call + 1 = call + 1 :=
      Cell.ofAddress_inj (by omega) (by omega) (hback.symm.trans hcell)
    omega
  · have hcell := h.below 2 (by omega)
    rw [hend, ← Nat.zero_add 2, ← hbottom] at hcell
    exact Cell.ofAddress_inj (by omega) (by omega) (hback'.symm.trans hcell)

end PCode.Codegen

namespace PCode

open Codegen

/-- Where `main` only calls a function with literal arguments and no block falls through, entering
the function alone leaves the stack that a run of the program leaves. The run takes a step for each
argument more, and seven for the calls of `main` and of the function and the return of `main`. -/
theorem compileText_invoke {text : String} {typed : Program} {Δ : Context} {L : Listing}
    (hcheck : checkText text = .ok (typed, Δ)) (hlisting : typed.listing Δ = .ok L)
    (hwords : L.WordSized Δ) {f : String} (hf : f ∈ Stmt.definedIn typed)
    {args : List (Cell × Note)} {n n' : Note}
    (hmain : .define "main" [] [] (.call f (args.map fun a => .integer a.1 a.2) n) n' ∈ typed)
    (memory memory' : Memory) (hsize : memory'.capacity = memory.capacity)
    (hcells : memory.capacity < 2 ^ 63) {exit : Exit} {final : Memory}
    (hrun : L.image.run memory = .halted exit final)
    (hclosing : ∀ m line, Machine.Reaches L.image.code (.start memory) m →
      L.lines[m.pc]? = some line → line.closing = false) :
    compileText text = .ok L.image ∧ ∃ steps final', exit.steps = steps + (args.length + 7) ∧
      L.image.invoke? memory' f (args.map Prod.fst) =
        some (.halted ⟨exit.stack, steps⟩ final') := by
  refine ⟨compileText_listing hcheck hlisting, ?_⟩
  obtain ⟨program, htyped⟩ := checkText_typed hcheck
  obtain ⟨sites, hmap⟩ := listing_stackMap hcheck hlisting hwords.lines
  have hemits := Program.listing_emits htyped hlisting
  have howned := hemits.owned fun s hs params body hdef => by
    obtain rfl := Stmt.eq_of_definition? htyped.defines_nodup hs hmain hdef rfl
    cases hdef
    exact ⟨_, _, rfl⟩
  obtain ⟨ret, stub, main, entry, hcode⟩ :=
    hemits.mainCalls hf (htyped.ordinary (Stmt.definedIn_subset hf)) hmain
  have hstart : Visits L memory exit [] (.start memory) :=
    ⟨.refl, _, Nat.le_refl _, final, Machine.run_eq_halted_iff.mp hrun⟩
  obtain ⟨m, m₁, hvisits, hcalled, hcapacity, htop, hbase, hnext, hsteps, hend⟩ :=
    hcode.visits hstart hwords.lines
  obtain ⟨levels, depth, hsound, hframes, hcells₁⟩ :=
    hvisits.runs.sound hmap hwords (.start hmap memory) rfl hcells
  obtain ⟨m', henter, hzero, hshifted⟩ :=
    @Called.shifted L f _ _ _ _ _ memory' hcalled htop hbase hnext (hsize.trans hcapacity.symm)
  have hreturn := (List.getElem?_eq_some_iff.mp hcode.returns).1
  obtain ⟨o, o', s, s', rfl, hcall, hlast⟩ :=
    hcalled.levels_eq htop hend hreturn hwords.lines hsound hframes
  have hground : Levels.Ground [⟨o, some s⟩, ⟨o', some s'⟩] f := hframes
  obtain ⟨k, hk, final₁, hrun₁⟩ := hvisits.halts
  have hsound : Sound L Δ sites ([] ++ [⟨o, some s⟩, ⟨o', some s'⟩]) depth m₁ := hsound
  rw [← hframes] at hshifted
  have hreturns : ∀ {types variadic ret}, Δ.function? f = some (.function types variadic ret) →
      ∃ owner, L.lines[o.call + 1]? = some ⟨owner, ⟨.ret, 0, Int64.ofInt ret.size⟩, false⟩ := by
    intro types variadic ret' hf'
    obtain ⟨_, _, htype⟩ := hcode.type
    rw [htype] at hf'
    cases hf'
    refine ⟨["main"], ?_⟩
    rw [hcall]
    exact hcode.returns
  obtain ⟨j, final', exit', hj, hrun', hstack, hcount⟩ := Shifted.halts hmap hwords howned hground
    hreturns hlast hshifted hsound hcells₁
    (fun m₂ line hreaches => hclosing m₂ line (hvisits.runs.reaches.trans hreaches)) hrun₁
  have hcount₁ := hcalled.steps
  rw [List.length_map] at hcount₁
  refine ⟨exit'.steps, final', by omega, ?_⟩
  have hentry : L.image.entry? f = some entry := hcode.enters
  have halted := Machine.run_eq_halted_iff.mpr (Machine.halted_mono hrun' (Nat.le_trans hj hk))
  rw [Image.invoke?, hentry, Option.map_some, henter]
  simp only [halted, ← hstack]

theorem incText_halts : (match checkText incText with
    | .ok (typed, Δ) => match typed.listing Δ with
      | .ok L => decide (L.lines.length < 2 ^ 63) &&
        decide (largestResult Δ.symbols.functions < 2 ^ 63) &&
        decide (∀ line ∈ L.lines, line.closing = false) &&
        decide ("inc" ∈ Stmt.definedIn typed) &&
        (match typed.getLast? with
        | some (.define name [] [] (.call f [.integer c _] _) _) =>
          decide (name = "main") && decide (f = "inc") && decide (c = 2)
        | _ => false) &&
        match (Machine.start (.blank 64)).runFor L.image.code 40 with
        | .halted _ _ => true
        | _ => false
      | .error _ => false
    | .error _ => false) = true := by
  decide +kernel

theorem compileText_invoke_inc : ∃ L exit final steps final',
    compileText incText = .ok (Listing.image L) ∧ L.image.run (.blank 64) = .halted exit final ∧
    exit.steps = steps + 8 ∧
    L.image.invoke? (.blank 64) "inc" [2] = some (.halted ⟨exit.stack, steps⟩ final') := by
  have h := incText_halts
  split at h
  · rename_i typed Δ hcheck
    split at h
    · rename_i L hlisting
      simp only [Bool.and_eq_true, decide_eq_true_eq] at h
      obtain ⟨⟨⟨⟨⟨hcode, hresults⟩, hclosing⟩, hinc⟩, hmain⟩, hrun⟩ := h
      have hfits : L.Fits Δ := ⟨hcode, hresults⟩
      split at hmain
      · rename_i name f c a n n' hlast
        simp only [Bool.and_eq_true, decide_eq_true_eq] at hmain
        obtain ⟨⟨rfl, rfl⟩, rfl⟩ := hmain
        split at hrun
        · rename_i exit final hhalted
          have hhalted := Machine.run_eq_halted_iff.mpr (Machine.halted_mono hhalted (by decide))
          have hdefined : .define "main" [] []
              (.call "inc" ([((2 : Cell), a)].map fun a => .integer a.1 a.2) n) n' ∈ typed :=
            List.mem_of_getLast? hlast
          obtain ⟨hcompile, steps, final', hsteps, hinvoke⟩ := compileText_invoke hcheck hlisting
            hfits.wordSized hinc hdefined (.blank 64) (.blank 64) rfl (by decide) hhalted
            fun m line _ hline => hclosing line (List.mem_of_getElem? hline)
          exact ⟨L, exit, final, steps, final', hcompile, hhalted, hsteps, hinvoke⟩
        · cases hrun
      · cases hmain
    · cases h
  · cases h

end PCode
