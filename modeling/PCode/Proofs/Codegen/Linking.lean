import PCode.Proofs.Codegen.Layout
import PCode.Proofs.Failure

namespace PCode.Codegen

variable {frame frame' : Frame} {env : Env} {start : Nat}

section Gen

variable {α : Type} {frame frame' : Frame}

@[simp] theorem fail_ne_ok {fault : CodegenFault} {span : Span} {a : α} :
    ¬ fail fault span frame = .ok (a, frame') := by
  simp [fail]

@[simp] theorem get_eq_ok_iff {a : Frame} :
    (get : Gen Frame) frame = .ok (a, frame') ↔ a = frame ∧ frame' = frame :=
  pure_apply_eq_ok_iff

@[simp] theorem set_eq_ok_iff {new : Frame} {u : PUnit} :
    (set new : Gen PUnit) frame = .ok (u, frame') ↔ frame' = new := by
  show Except.ok (PUnit.unit, new) = _ ↔ _
  simp [eq_comm]

@[simp] theorem allocate_eq_ok_iff {size offset : Nat} :
    allocate size frame = .ok (offset, frame') ↔
      offset = frame.size ∧ frame' = { frame with size := frame.size + size } := by
  simp only [allocate, Except.ok.injEq, Prod.mk.injEq]
  exact and_congr eq_comm eq_comm

@[simp] theorem assigned_name (env : Env) (x : String) (n : Note) :
    assigned env (.name x n) = env.slot x n.span := rfl

@[simp] theorem slot_eq_ok_iff {env : Env} {x : String} {span : Span} {slot : Slot} :
    env.slot x span frame = .ok (slot, frame') ↔
      env.vars.get? x = some slot ∧ frame' = frame := by
  unfold Env.slot
  cases env.vars.get? x with
  | none => simp
  | some slot' =>
    simp only [pure_apply_eq_ok_iff, Option.some.injEq]
    exact and_congr eq_comm Iff.rfl

@[simp] theorem knownEntry_eq_ok_iff {name : String} {entry : Option Nat} :
    knownEntry name frame = .ok (entry, frame') ↔
      entry = frame.functions.get? name ∧ frame' = frame := by
  simp only [knownEntry, Except.ok.injEq, Prod.mk.injEq]
  exact and_congr eq_comm eq_comm

@[simp] theorem intern_eq_ok_iff {text : String} {index : Nat} :
    intern text frame = .ok (index, frame') ↔
      index = (frame.strings.intern text).1 ∧
        frame' = { frame with strings := (frame.strings.intern text).2 } := by
  simp only [intern, Except.ok.injEq, Prod.mk.injEq]
  exact and_congr eq_comm eq_comm

end Gen

section Link

variable {fs : Table Nat} {items others : List Item} {lines : List Line} {env : Env}

/-- The line that an item becomes, if the entry of its function is known. -/
def Item.line? (fs : Table Nat) : Item → Option Line
  | .line l => some l
  | .forward owner level name _ =>
    (fs.get? name).map fun entry => { owner, instruction := ⟨.cal, level, Int64.ofNat entry⟩ }

theorem link_cons {item : Item} : link fs (item :: items) = .ok lines ↔
    ∃ l rest, item.line? fs = some l ∧ link fs items = .ok rest ∧ lines = l :: rest := by
  cases item with
  | line l =>
    simp only [link, bind_eq_ok_iff, Item.line?, Option.some.injEq]
    constructor
    · rintro ⟨rest, hrest, ⟨⟩⟩
      exact ⟨l, rest, rfl, hrest, rfl⟩
    · rintro ⟨_, rest, rfl, hrest, rfl⟩
      exact ⟨rest, hrest, rfl⟩
  | forward owner level name span =>
    simp only [link, Item.line?]
    cases fs.get? name with
    | none => simp
    | some entry =>
      simp only [bind_eq_ok_iff, Option.map_some, Option.some.injEq]
      constructor
      · rintro ⟨rest, hrest, ⟨⟩⟩
        exact ⟨_, rest, rfl, hrest, rfl⟩
      · rintro ⟨_, rest, rfl, hrest, rfl⟩
        exact ⟨rest, hrest, rfl⟩

theorem link_append : link fs (items ++ others) = .ok lines ↔
    ∃ a b, link fs items = .ok a ∧ link fs others = .ok b ∧ lines = a ++ b := by
  induction items generalizing lines with
  | nil => simp [link]
  | cons item items ih =>
    simp only [List.cons_append, link_cons, ih]
    constructor
    · rintro ⟨l, _, hl, ⟨a, b, ha, hb, rfl⟩, rfl⟩
      exact ⟨l :: a, b, ⟨l, a, hl, ha, rfl⟩, hb, rfl⟩
    · rintro ⟨_, b, ⟨l, a, hl, ha, rfl⟩, hb, rfl⟩
      exact ⟨l, a ++ b, hl, ⟨a, b, ha, hb, rfl⟩, rfl⟩

theorem link_length (h : link fs items = .ok lines) : lines.length = items.length := by
  induction items generalizing lines with
  | nil =>
    cases h
    rfl
  | cons item items ih =>
    obtain ⟨l, rest, -, hrest, rfl⟩ := link_cons.mp h
    rw [List.length_cons, List.length_cons, ih hrest]

@[simp] theorem link_nil : link fs [] = .ok lines ↔ lines = [] := by
  simp [link, eq_comm]

@[simp] theorem link_line (l : Line) : link fs [.line l] = .ok lines ↔ lines = [l] := by
  simp [link_cons, Item.line?]

theorem link_lines (ls : List Line) : link fs (ls.map .line) = .ok lines ↔ lines = ls := by
  induction ls generalizing lines with
  | nil => simp
  | cons l ls ih =>
    rw [List.map_cons, ← List.singleton_append, link_append]
    simp [ih]

@[simp] theorem link_emit {op : Opcode} {level : Nat} {operand : Cell} :
    link fs [env.emit op level operand] = .ok lines ↔ lines = [env.line op level operand] :=
  link_line _

@[simp] theorem link_item {op : Opcode} {level : Nat} {operand : Int} :
    link fs [env.item op level operand] = .ok lines ↔
      lines = [env.line op level (Int64.ofInt operand)] :=
  link_line _

theorem loadCells_eq_map (env : Env) (level offset size : Nat) :
    env.loadCells level offset size = (env.loads level offset size).map .line := by
  rw [Env.loads, List.map_map]
  rfl

theorem storeCells_eq_map (env : Env) (level offset size : Nat) :
    env.storeCells level offset size = (env.stores level offset size).map .line := by
  rw [Env.stores, List.map_map]
  rfl

@[simp] theorem link_loadCells {level offset size : Nat} :
    link fs (env.loadCells level offset size) = .ok lines ↔
      lines = env.loads level offset size := by
  rw [loadCells_eq_map, link_lines]

@[simp] theorem link_storeCells {level offset size : Nat} :
    link fs (env.storeCells level offset size) = .ok lines ↔
      lines = env.stores level offset size := by
  rw [storeCells_eq_map, link_lines]

theorem link_callItem {level : Nat} {name : String} {span : Span} {known : Option Nat}
    (h : link fs [callItem env level name span known] = .ok lines)
    (hknown : ∀ entry, known = some entry → fs.get? name = some entry) :
    ∃ entry, fs.get? name = some entry ∧ lines = [env.line .cal level (Int64.ofInt entry)] := by
  cases known with
  | some entry => exact ⟨entry, hknown entry rfl, link_item.mp h⟩
  | none =>
    obtain ⟨l, _, hl, hnil, rfl⟩ := link_cons.mp h
    cases hnil
    obtain ⟨entry, hentry, rfl⟩ := Option.map_eq_some_iff.mp hl
    exact ⟨entry, hentry, rfl⟩

theorem link_skipped {start : Nat} (h : link fs (skipped env start items) = .ok lines) :
    ∃ a, link fs items = .ok a ∧
      lines = env.line .jmp 0 (Int64.ofInt (start + 1 + a.length : Nat)) :: a := by
  rw [skipped, ← List.singleton_append, link_append] at h
  obtain ⟨j, a, hj, ha, rfl⟩ := h
  rw [link_item] at hj
  subst hj
  exact ⟨a, ha, by rw [link_length ha]; rfl⟩

theorem link_choose {start : Nat} (h : link fs (choose env start items others) = .ok lines) :
    ∃ a b, link fs items = .ok a ∧ link fs others = .ok b ∧ lines = chooseLines env start a b := by
  obtain ⟨_, b, hpaj, hb, rfl⟩ := link_append.mp h
  obtain ⟨_, j, hpa, hj, rfl⟩ := link_append.mp hpaj
  obtain ⟨p, a, hp, ha, rfl⟩ := link_append.mp hpa
  rw [link_item] at hp hj
  subst hp hj
  refine ⟨a, b, ha, hb, ?_⟩
  rw [← link_length ha, ← link_length hb]
  rfl

end Link

/-- Later generation adds functions of these names, in this order, and strings. -/
structure Frame.Grows (names : List String) (frame frame' : Frame) : Prop where
  functions : ∃ entries, frame'.functions = entries ++ frame.functions ∧
    entries.map Prod.fst = names.reverse
  strings : frame.strings <+: frame'.strings

namespace Frame.Grows

variable {frame frame₁ frame₂ : Frame} {names names' : List String}

theorem refl (frame : Frame) : Grows [] frame frame :=
  ⟨⟨[], rfl, rfl⟩, List.prefix_rfl⟩

theorem trans (h : Grows names frame frame₁) (h' : Grows names' frame₁ frame₂) :
    Grows (names ++ names') frame frame₂ := by
  obtain ⟨entries, hf, hnames⟩ := h.functions
  obtain ⟨entries', hf', hnames'⟩ := h'.functions
  refine ⟨⟨entries' ++ entries, ?_, ?_⟩, h.strings.trans h'.strings⟩
  · rw [hf', hf, List.append_assoc]
  · rw [List.map_append, hnames, hnames', List.reverse_append]

theorem resize (h : Grows names frame frame₁) (size : Nat) :
    Grows names frame { frame₁ with size } :=
  ⟨h.functions, h.strings⟩

end Frame.Grows

/-- The listing comes from a generation that went on from this frame. -/
structure Listing.Covers (L : Listing) (frame : Frame) : Prop where
  functions : frame.functions <:+ L.functions
  strings : frame.strings <+: L.strings
  nodup : (L.functions.map Prod.fst).Nodup

theorem Listing.Covers.earlier {L : Listing} {names : List String} (h : L.Covers frame')
    (hg : frame.Grows names frame') : L.Covers frame := by
  obtain ⟨entries, hf, -⟩ := hg.functions
  refine ⟨?_, hg.strings.trans h.strings, h.nodup⟩
  exact List.IsSuffix.trans ⟨entries, hf.symm⟩ h.functions

/-- Items generated between two frames: they define functions of these names, and in every listing
they become lines with a property. -/
structure Generated (names : List String) (frame frame' : Frame) (items : List Item)
    (E : Listing → List Line → Prop) : Prop where
  grows : frame.Grows names frame'
  emits : ∀ {L lines}, L.Covers frame' → link L.functions items = .ok lines → E L lines

namespace Generated

variable {names names' : List String} {frame mid frame' : Frame} {items others : List Item}
  {lines : List Line} {E F : Listing → List Line → Prop} {env : Env} {start : Nat}

theorem imp (h : Generated names frame frame' items E) (hEF : ∀ L ls, E L ls → F L ls) :
    Generated names frame frame' items F :=
  ⟨h.grows, fun hL hlink => hEF _ _ (h.emits hL hlink)⟩

theorem pure (hlink : ∀ {fs ls}, link fs items = .ok ls ↔ ls = lines) (hE : ∀ L, E L lines) :
    Generated [] frame frame items E := by
  refine ⟨.refl _, fun _ h => ?_⟩
  rw [hlink.mp h]
  exact hE _

theorem emit (hlink : ∀ {fs ls}, link fs items = .ok ls ↔ ls = lines) :
    Generated [] frame frame items fun _ ls => ls = lines :=
  .pure hlink fun _ => rfl

theorem append (h : Generated names frame mid items E) (h' : Generated names' mid frame' others F) :
    Generated (names ++ names') frame frame' (items ++ others) fun L ls =>
      ∃ a b, ls = a ++ b ∧ a.length = items.length ∧ E L a ∧ F L b := by
  refine ⟨h.grows.trans h'.grows, fun hL hlink => ?_⟩
  obtain ⟨a, b, ha, hb, rfl⟩ := link_append.mp hlink
  exact ⟨a, b, rfl, link_length ha, h.emits (hL.earlier h'.grows) ha, h'.emits hL hb⟩

theorem followed (h : Generated names frame frame' items E)
    (hlink : ∀ {fs ls}, link fs others = .ok ls ↔ ls = lines) :
    Generated names frame frame' (items ++ others) fun L ls =>
      ∃ a, ls = a ++ lines ∧ a.length = items.length ∧ E L a := by
  refine ⟨h.grows, fun hL hall => ?_⟩
  obtain ⟨a, b, ha, hb, rfl⟩ := link_append.mp hall
  obtain rfl := hlink.mp hb
  exact ⟨a, rfl, link_length ha, h.emits hL ha⟩

theorem choose (h : Generated names frame mid items E)
    (h' : Generated names' mid frame' others F) :
    Generated (names ++ names') frame frame' (choose env start items others) fun L ls =>
      ∃ a b, ls = chooseLines env start a b ∧ a.length = items.length ∧ E L a ∧ F L b := by
  refine ⟨h.grows.trans h'.grows, fun hL hlink => ?_⟩
  obtain ⟨a, b, ha, hb, rfl⟩ := link_choose hlink
  exact ⟨a, b, rfl, link_length ha, h.emits (hL.earlier h'.grows) ha, h'.emits hL hb⟩

theorem skipped (h : Generated names frame frame' items E) :
    Generated names frame frame' (skipped env start items) fun L ls =>
      ∃ a, ls = env.line .jmp 0 (Int64.ofInt (start + 1 + a.length : Nat)) :: a ∧ E L a := by
  refine ⟨h.grows, fun hL hlink => ?_⟩
  obtain ⟨a, ha, rfl⟩ := link_skipped hlink
  exact ⟨a, rfl, h.emits hL ha⟩

theorem resize (h : Generated names frame frame' items E) (size : Nat) :
    Generated names frame { frame' with size } items E :=
  ⟨h.grows.resize size, fun hL => h.emits ⟨hL.functions, hL.strings, hL.nodup⟩⟩

theorem call {level : Nat} {name : String} {span : Span} :
    Generated [] frame frame [callItem env level name span (frame.functions.get? name)]
      fun L ls => ∃ entry, L.functions.get? name = some entry ∧
        ls = [env.line .cal level (Int64.ofInt entry)] :=
  ⟨.refl _, fun hL h => link_callItem h fun _ hknown =>
    Table.get?_of_suffix hL.functions hL.nodup hknown⟩

end Generated

end PCode.Codegen
