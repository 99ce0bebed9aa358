import PCode.Proofs.Codegen.Layout

namespace PCode

/-- The number of cells that a call of a function of this type leaves. -/
def Ty.resultSize : Ty → Nat
  | .function _ _ ret => ret.size
  | _ => 0

/-- The largest result of a function in a table. -/
def largestResult : Table Ty → Nat
  | [] => 0
  | (_, τ) :: table => max τ.resultSize (largestResult table)

theorem resultSize_le_largestResult {table : Table Ty} {name : String} {τ : Ty}
    (h : table.get? name = some τ) : τ.resultSize ≤ largestResult table := by
  induction table with
  | nil => simp at h
  | cons entry table ih =>
    rw [Table.get?_cons] at h
    by_cases hname : entry.1 = name
    · rw [if_pos hname, Option.some.injEq] at h
      subst h
      exact Nat.le_max_left _ _
    · rw [if_neg hname] at h
      exact Nat.le_trans (ih h) (Nat.le_max_right _ _)

namespace Codegen.Listing

variable {L : Listing} {context : Context} {line : Line} {lines others : List Line}

/-- No line lets the stack of its frame grow by more cells: a header, the variables of a function,
or the result of a call. -/
def reach (L : Listing) (context : Context) : Nat :=
  headerSize + L.lines.length + largestResult context.symbols.functions

/-- The cells by which these lines let the stack of their frame grow at most. -/
def cost (L : Listing) (context : Context) (lines : List Line) : Nat :=
  lines.length * L.reach context

theorem three_le_reach : 3 ≤ L.reach context := by
  unfold reach headerSize
  omega

@[simp] theorem cost_nil : L.cost context [] = 0 := by
  simp [cost]

@[simp] theorem cost_append :
    L.cost context (lines ++ others) = L.cost context lines + L.cost context others := by
  simp [cost, Nat.add_mul]

@[simp] theorem cost_cons :
    L.cost context (line :: lines) = L.reach context + L.cost context lines := by
  simp [cost, Nat.add_mul, Nat.add_comm]

theorem length_le_cost : lines.length ≤ L.cost context lines := by
  have := @three_le_reach L context
  unfold cost
  exact Nat.le_mul_of_pos_right _ (by omega)

theorem size_le_cost_loads {env : Env} {level offset size : Nat} :
    size ≤ L.cost context (env.loads level offset size) := by
  have hle := @length_le_cost L context (env.loads level offset size)
  rwa [length_loads] at hle

theorem cost_le (h : lines.length ≤ others.length) :
    L.cost context lines ≤ L.cost context others :=
  Nat.mul_le_mul_right _ h

/-- Addresses of the code and the sizes of results fit into cells. -/
structure Fits (L : Listing) (context : Context) : Prop where
  lines : L.lines.length < 2 ^ 63
  results : largestResult context.symbols.functions < 2 ^ 63

section Results

variable {name : String} {types : List Ty} {variadic : Bool} {ret : Ty}
  (h : context.function? name = some (.function types variadic ret))
include h

theorem result_le_reach : ret.size ≤ L.reach context := by
  have hle : ret.size ≤ largestResult context.symbols.functions := resultSize_le_largestResult h
  unfold reach
  omega

theorem Fits.result (hfits : L.Fits context) : ret.size < 2 ^ 63 :=
  Nat.lt_of_le_of_lt (resultSize_le_largestResult h) hfits.results

end Results

end Codegen.Listing

namespace Codegen

variable {L : Listing}

theorem EmitsFunction.entry {env : Env} {start : Nat} {name : String} {params : List String}
    {body : Body} {lines : List Line} (h : EmitsFunction L env start name params body lines) :
    L.functions.get? name = some start := by
  cases h with
  | mk _ _ hentry _ => exact hentry

theorem EmitsFunction.ne_nil {env : Env} {start : Nat} {name : String} {params : List String}
    {body : Body} {lines : List Line} (h : EmitsFunction L env start name params body lines) :
    lines ≠ [] := by
  cases h with
  | mk => simp

mutual

theorem EmitsExpr.size_le {env : Env} {start f f' : Nat} {e : Expr} {lines : List Line} :
    EmitsExpr L env start f e lines f' → e.ty.size ≤ L.cost env.context lines
  | .integer h | .real h | .text h _ | .boolean h => by
    have := @Listing.three_le_reach L env.context
    rw [Expr.ty, Expr.note, h]
    simp only [Listing.cost_cons, Listing.cost_nil]
    omega
  | .place h => by
    rw [h.ty]
    exact Listing.size_le_cost_loads
  | .plus h he hn => by
    have := h.size_le
    rw [Expr.ty, Expr.note]
    omega
  | .unary _ _ _ hn | .binary _ _ _ _ hn => by
    have := @Listing.three_le_reach L env.context
    rw [Expr.ty, Expr.note, hn]
    simp only [Listing.cost_append, Listing.cost_cons]
    omega
  | .spill h _ _ hle => by
    have := h.size_le
    rw [Expr.ty, Expr.note]
    simp only [Listing.cost_append]
    omega
  | @EmitsExpr.assign _ _ _ _ _ _ _ _ _ _ slot _ _ _ hn => by
    have := @Listing.size_le_cost_loads L env.context env (env.distance slot) slot.offset
      slot.ty.size
    rw [Expr.ty, Expr.note, hn]
    simp only [Listing.cost_append]
    omega
  | .cond _ ht _ _ hty _ => by
    have := ht.size_le
    rw [Expr.ty, Expr.note, ← hty]
    simp only [chooseLines, Listing.cost_append]
    omega
  | .construct _ _ h hn => by
    have := h.size_le
    rw [Expr.ty, Expr.note, hn]
    exact this
  | .call _ _ h => h.size_le

theorem EmitsCall.size_le {env : Env} {start f f' : Nat} {c : String} {args : List Expr} {ret : Ty}
    {lines : List Line} : EmitsCall L env start f c args ret lines f' →
    ret.size ≤ L.cost env.context lines
  | .mk _ hf _ _ _ => by
    have := @Listing.result_le_reach L _ _ _ _ _ hf
    simp only [Listing.cost_append, Listing.cost_cons]
    omega

theorem EmitsExprs.size_le {env : Env} {start f f' : Nat} {es : List Expr} {lines : List Line} :
    EmitsExprs L env start f es lines f' → cellsOf (es.map Expr.ty) ≤ L.cost env.context lines
  | .nil => by simp [cellsOf]
  | .cons h hs => by
    have := h.size_le
    have := hs.size_le
    rw [List.map_cons, cellsOf_cons]
    simp only [Listing.cost_append]
    omega

end

end Codegen

end PCode
