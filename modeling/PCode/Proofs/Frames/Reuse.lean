import PCode.Proofs.Frames.Runs
import PCode.Proofs.Machine.Agreement

namespace PCode.Codegen

variable {L : Listing} {Δ : Context} {sites : Nat → Option Site} {levels : Levels} {depth : Nat}
  {m m' : Machine} {line : Line}

theorem Sound.linksBelow (h : Sound L Δ sites levels depth m) (hcells : m.memory.capacity < 2 ^ 63)
    {level limit : Nat} (hlevel : level ≤ levels.path.length) (hlimit : levels.edge ≤ limit) :
    m.LinksBelow level limit := by
  intro k hk base hbase
  have hroom := Nat.le_trans h.edge h.room
  obtain ⟨link, hfollow, hchained, -⟩ := h.standing.chained.follow
    (fun frame hframe => h.standing.base_lt hframe) hroom (by omega)
    (show k ≤ levels.path.length by omega)
  rw [← h.base, hbase, Option.some.injEq] at hfollow
  subst hfollow
  have hmem := hchained.mem (by
    intro hnil
    have := congrArg List.length hnil
    simp only [List.length_drop, List.length_nil] at this
    omega)
  exact Nat.lt_of_lt_of_le (h.standing.base_lt hmem) hlimit

theorem Sound.looksBelow (h : Sound L Δ sites levels depth m) (hcells : m.memory.capacity < 2 ^ 63)
    (hplaced : Placed L Δ sites m.pc line (levels.site depth)) : m.LooksBelow line.instruction := by
  have hedge := h.edge
  cases hplaced with
  | lit | opr | reserve | discard | jmp | jpc => trivial
  | lod hfloor hlevel hlow hhigh _ =>
    refine ⟨h.linksBelow hcells (Nat.le_of_lt hlevel) hedge, fun base hbase => ?_⟩
    obtain ⟨base', hfollow, hoffset, hlt, -⟩ :=
      h.variable hcells hfloor (Nat.le_refl _) hlevel hlow hhigh
    simp only at hbase
    rw [hbase, Option.some.injEq] at hfollow
    subst hfollow
    simp only [hoffset, h.top]
    exact hlt
  | sto hfloor hlevel _ _ _ =>
    -- the value is popped before the links are followed
    simp only [Levels.site] at hfloor
    have hbelow := h.edge_le (Nat.le_sub_of_add_le hfloor)
    have htop := h.top_eq (show 1 ≤ depth by omega)
    exact h.linksBelow hcells (Nat.le_of_lt hlevel) (by omega)
  | cap _ hlevel _ _ _ _ => exact h.linksBelow hcells hlevel hedge
  | cal hopened _ _ _ _ _ _ _ =>
    obtain ⟨tail, rfl, -⟩ := Levels.eq_of_opened_cons hopened
    have hedge : Levels.address tail _ + 3 ≤ m.top := hedge
    have hnext : m.next = Levels.address tail _ := h.next
    show m.next + 2 < m.top
    omega
  | ret hpath hopened _ _ _ =>
    obtain ⟨opening, surplus, tail, rfl, -, -⟩ := Levels.eq_of_opened_nil hopened hpath
    have hedge : Levels.address tail _ + 3 ≤ m.top := hedge
    have hbase : m.base = Levels.address tail _ := h.base
    show m.base + 2 < m.top
    omega

theorem Sound.sameStack (h : Sound L Δ sites levels depth m) (hsame : m.SameStack m') :
    Sound L Δ sites levels depth m' where
  site := by rw [hsame.pc]; exact h.site
  standing := h.standing.congr_below fun i hi =>
    hsame.memory.cells i (Nat.lt_of_lt_of_le hi h.edge)
  base := by rw [hsame.base]; exact h.base
  next := by rw [hsame.next]; exact h.next
  top := by rw [hsame.top]; exact h.top
  edge := by rw [hsame.top]; exact h.edge
  room := by rw [hsame.top, hsame.memory.capacity]; exact h.room

/-- Two states of a compiled program with the same stack. -/
structure Twins (L : Listing) (Δ : Context) (sites : Nat → Option Site) (m m' : Machine) :
    Prop where
  sound : ∃ levels depth, Sound L Δ sites levels depth m
  same : m.SameStack m'
  cells : m.memory.capacity < 2 ^ 63

namespace Twins

theorem symm (h : Twins L Δ sites m m') : Twins L Δ sites m' m := by
  obtain ⟨levels, depth, hsound⟩ := h.sound
  refine ⟨⟨levels, depth, hsound.sameStack h.same⟩, h.same.symm, ?_⟩
  rw [h.same.memory.capacity]
  exact h.cells

theorem step (hmap : StackMap L Δ sites) (hwords : L.WordSized Δ) (h : Twins L Δ sites m m') :
    Tracks (Twins L Δ sites) (m.step L.image.code) (m'.step L.image.code) := by
  obtain ⟨levels, depth, hsound⟩ := h.sound
  intro m₁ hstep
  have hpc := Machine.lt_size_of_step hstep
  rw [Listing.size_code] at hpc
  have hline := List.getElem?_eq_getElem hpc
  have hlooks : ∀ i, L.image.code[m.pc]? = some i → m.LooksBelow i := by
    intro i hi
    rw [Listing.fetch hline, Option.some.injEq] at hi
    subst hi
    exact hsound.looksBelow h.cells (hmap.placed hline hsound.site)
  obtain ⟨m₁', hstep', hsame⟩ := h.same.step hlooks m₁ hstep
  obtain ⟨hcapacity, -⟩ := Machine.step_keeps hstep
  refine ⟨m₁', hstep', ?_, hsame, by rw [hcapacity]; exact h.cells⟩
  obtain ⟨_, levels₁, depth₁, -, hsound₁, -⟩ := hsound.step hmap hwords h.cells
    (Listing.next?_eq_some_iff.mpr ⟨_, hline, hstep, rfl⟩)
  exact ⟨levels₁, depth₁, hsound₁⟩

theorem start (hmap : StackMap L Δ sites) {memory memory' : Memory}
    (hsize : memory'.capacity = memory.capacity) (hcells : memory.capacity < 2 ^ 63) :
    Twins L Δ sites (.start memory) (.start memory') :=
  ⟨⟨[], 0, .start hmap memory⟩, ⟨rfl, hsize, fun i hi => absurd hi (Nat.not_lt_zero i)⟩, hcells⟩

end Twins

end PCode.Codegen

namespace PCode

open Codegen

/-- A program comes to the same end in all memories of one size, after the same number of steps,
whatever earlier runs have left in them. -/
theorem compileText_reusable {text : String} {typed : Program} {Δ : Context} {L : Listing}
    (hcheck : checkText text = .ok (typed, Δ)) (hlisting : typed.listing Δ = .ok L)
    (hwords : L.WordSized Δ) (memory memory' : Memory) (hsize : memory'.capacity = memory.capacity)
    (hcells : memory.capacity < 2 ^ 63) :
    compileText text = .ok L.image ∧ (L.image.run memory).Alike (L.image.run memory') ∧
    ∀ n, ((Machine.start memory).runFor L.image.code n).Alike
      ((Machine.start memory').runFor L.image.code n) := by
  obtain ⟨sites, hmap⟩ := listing_stackMap hcheck hlisting hwords.lines
  have hstart := Twins.start hmap hsize hcells
  have hstep : ∀ {m m'}, Twins L Δ sites m m' → _ := fun h => h.step hmap hwords
  refine ⟨compileText_listing hcheck hlisting, ?_, fun n => ?_⟩
  · exact Machine.run_alike hstep Twins.symm (fun h => h.same.pc) (fun h => h.same.exit) hstart
  · exact Machine.runFor_alike hstep Twins.symm (fun h => h.same.pc) (fun h => h.same.exit) hstart n

theorem compileText_reusable_add : ∃ L, compileText addText = .ok (Listing.image L) ∧
    (L.image.run (.blank 64)).Alike (L.image.run ⟨64, #[7, -1, 3, 12, 5, 9]⟩) := by
  have h := addText_returns
  split at h
  · rename_i typed Δ hcheck
    split at h
    · rename_i L hlisting
      simp only [Bool.and_eq_true, decide_eq_true_eq] at h
      have hfits : L.Fits Δ := ⟨h.1.1, h.1.2⟩
      obtain ⟨hcompile, halike, -⟩ := compileText_reusable hcheck hlisting hfits.wordSized
        (.blank 64) ⟨64, #[7, -1, 3, 12, 5, 9]⟩ rfl (by decide)
      exact ⟨L, hcompile, halike⟩
    · cases h
  · cases h

end PCode
