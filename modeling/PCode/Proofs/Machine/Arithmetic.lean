import PCode.Proofs.Machine.Steps

namespace PCode

namespace Cell

/-- The cell is a number reduced modulo `2 ^ 64` to the range of a cell. -/
structure Reduces (cell : Cell) (number : Int) : Prop where
  low : -2 ^ 63 ≤ cell.toInt
  high : cell.toInt < 2 ^ 63
  congruent : cell.toInt ≡ number [ZMOD 2 ^ 64]

theorem reduces_of_toInt_eq {cell : Cell} {number : Int} (h : cell.toInt = number.bmod (2 ^ 64)) :
    cell.Reduces number := by
  refine ⟨cell.le_toInt, cell.toInt_lt, ?_⟩
  rw [h]
  exact Int.bmod_emod

/-- The quotient and the remainder of a division that truncates. There is one quotient that no cell
holds: that of the least number by `-1`, which is its own negative as a cell. -/
structure IsDivision (left right quotient remainder : Cell) : Prop where
  law : quotient.toInt * right.toInt + remainder.toInt ≡ left.toInt [ZMOD 2 ^ 64]
  small : |remainder.toInt| < |right.toInt|
  sign : remainder.toInt = 0 ∨ remainder.toInt.sign = left.toInt.sign
  truncates : ¬ (left = Int64.minValue ∧ right = -1) →
    quotient.toInt = left.toInt.tdiv right.toInt
  overflows : left = Int64.minValue ∧ right = -1 → quotient = Int64.minValue ∧ remainder = 0

section Division

variable {left right : Cell}

theorem toInt_ne_zero (h : right ≠ 0) : right.toInt ≠ 0 := by
  rw [← Int64.toInt_zero]
  exact fun heq => h (Int64.toInt_inj.mp heq)

theorem div_mul_add_mod (left right : Cell) :
    (left / right).toInt * right.toInt + (left % right).toInt ≡ left.toInt [ZMOD 2 ^ 64] := by
  have hquotient := (reduces_of_toInt_eq (Int64.toInt_div left right)).congruent
  calc (left / right).toInt * right.toInt + (left % right).toInt
      ≡ left.toInt.tdiv right.toInt * right.toInt + (left % right).toInt [ZMOD 2 ^ 64] :=
        (hquotient.mul_right _).add_right _
    _ = left.toInt := by rw [Int64.toInt_mod, Int.tdiv_mul_add_tmod]

theorem abs_mod_lt (h : right ≠ 0) : |(left % right).toInt| < |right.toInt| := by
  have hpos : 0 < right.toInt.natAbs := Int.natAbs_pos.mpr (toInt_ne_zero h)
  rw [Int64.toInt_mod, Int.abs_eq_natAbs, Int.abs_eq_natAbs, Int.natAbs_tmod]
  exact_mod_cast Nat.mod_lt _ hpos

theorem sign_mod (left right : Cell) :
    (left % right).toInt = 0 ∨ (left % right).toInt.sign = left.toInt.sign := by
  rw [Int64.toInt_mod, ← Int.sign_eq_zero_iff_zero, Int.sign_tmod]
  split
  · exact .inl rfl
  · exact .inr rfl

theorem toInt_div_of_not_overflow (h : ¬ (left = Int64.minValue ∧ right = -1)) :
    (left / right).toInt = left.toInt.tdiv right.toInt := by
  by_cases hleft : left = Int64.minValue
  · exact Int64.toInt_div_of_ne_right left right fun hright => h ⟨hleft, hright⟩
  · exact Int64.toInt_div_of_ne_left left right hleft

theorem isDivision (h : right ≠ 0) : IsDivision left right (left / right) (left % right) where
  law := div_mul_add_mod left right
  small := abs_mod_lt h
  sign := sign_mod left right
  truncates := toInt_div_of_not_overflow
  overflows := by
    rintro ⟨rfl, rfl⟩
    exact ⟨Int64.minValue_div_neg_one, by decide⟩

end Division

end Cell

namespace Operator

/-- The cells that an operator takes from the stack, the lowest first. -/
def cells (operator : Operator) (left right : Cell) : List Cell :=
  if operator.isUnary then [right] else [left, right]

theorem apply_of_isUnary {operator : Operator} (h : operator.isUnary = true)
    (left left' right : Cell) : operator.apply left right = operator.apply left' right := by
  revert h
  cases operator <;> simp [isUnary, apply]

end Operator

namespace Machine

variable {code : Array Instruction} {m : Machine} {operator : Operator} {left right : Cell}
  {rest : Nat}

/-- The next instruction is an operator, and its cells are on top of the stack. -/
structure Ready (code : Array Instruction) (m : Machine) (operator : Operator) (left right : Cell)
    (rest : Nat) : Prop where
  instruction : ∃ level, code[m.pc]? = some ⟨.opr, level, operator.operand⟩
  top : m.top = rest + operator.arity
  inside : m.top ≤ m.memory.capacity
  cells : m.memory.read rest operator.arity = operator.cells left right

theorem Ready.step_eq_ok (h : Ready code m operator left right rest) : m.step code =
    .ok (m.moved (m.memory.put rest (operator.apply left right)) (rest + 1)) := by
  obtain ⟨⟨level, hinstruction⟩, htop, hinside, hcells⟩ := h
  have hoperator := operator.ofOperand?_operand
  cases hunary : operator.isUnary with
  | true =>
    simp only [Operator.arity, Operator.cells, hunary, if_true] at htop hcells
    rw [htop] at hinside
    obtain ⟨rfl, -⟩ := List.cons.inj hcells
    rw [step_unary hinstruction hoperator hunary htop hinside,
      Operator.apply_of_isUnary hunary 0 left]
    rfl
  | false =>
    simp only [Operator.arity, Operator.cells, hunary, Bool.false_eq_true, if_false] at htop hcells
    rw [htop] at hinside
    obtain ⟨rfl, hright⟩ := List.cons.inj hcells
    obtain ⟨rfl, -⟩ := List.cons.inj hright
    rw [step_binary hinstruction hoperator hunary htop hinside]
    rfl

end Machine

/-- The integer operators on any two cells. Negation, sum, difference and product are exact up to
the reduction to the range of a cell. By zero, quotient and remainder are zero; otherwise they are
those of a division that truncates. Where the cells are on the stack of a machine, its step leads to
the result, whatever the cells are. -/
theorem Operator.integer_arithmetic (left right : Cell) :
    (apply .neg left right).Reduces (-right.toInt) ∧
    (apply .add left right).Reduces (left.toInt + right.toInt) ∧
    (apply .sub left right).Reduces (left.toInt - right.toInt) ∧
    (apply .mul left right).Reduces (left.toInt * right.toInt) ∧
    (right = 0 → apply .div left right = 0 ∧ apply .mod left right = 0) ∧
    (right ≠ 0 → Cell.IsDivision left right (apply .div left right) (apply .mod left right)) ∧
    ∀ operator code m rest, Machine.Ready code m operator left right rest → m.step code =
      .ok (m.moved (m.memory.put rest (operator.apply left right)) (rest + 1)) := by
  refine ⟨Cell.reduces_of_toInt_eq (Int64.toInt_neg _),
    Cell.reduces_of_toInt_eq (Int64.toInt_add _ _),
    Cell.reduces_of_toInt_eq (Int64.toInt_sub _ _), Cell.reduces_of_toInt_eq (Int64.toInt_mul _ _),
    ?_, ?_, fun _ _ _ _ hready => hready.step_eq_ok⟩
  · rintro rfl
    exact ⟨rfl, rfl⟩
  · intro h
    simp only [apply, if_neg h]
    exact Cell.isDivision h

/-- A machine that is about to divide seven by zero. -/
def sevenByZero : Machine :=
  { memory := ⟨2, #[7, 0]⟩, top := 2 }

/-- Division by zero, also as a step of a machine, and the quotient that no cell holds. -/
theorem Operator.integer_arithmetic_extremes :
    (apply .div 7 0 = 0 ∧ apply .mod 7 0 = 0) ∧
    sevenByZero.step #[⟨.opr, 0, div.operand⟩] =
      .ok (sevenByZero.moved (sevenByZero.memory.put 0 (apply .div 7 0)) 1) ∧
    Cell.IsDivision Int64.minValue (-1) (apply .div Int64.minValue (-1))
      (apply .mod Int64.minValue (-1)) := by
  have hready : Machine.Ready #[⟨.opr, 0, div.operand⟩] sevenByZero .div 7 0 0 :=
    ⟨⟨0, rfl⟩, rfl, by decide, rfl⟩
  obtain ⟨-, -, -, -, hzero, -, hstep⟩ := integer_arithmetic 7 0
  obtain ⟨-, -, -, -, -, hdivision, -⟩ := integer_arithmetic Int64.minValue (-1)
  exact ⟨hzero rfl, hstep _ _ _ _ hready, hdivision (by decide)⟩

end PCode
