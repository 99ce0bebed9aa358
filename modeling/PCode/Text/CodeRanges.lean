namespace PCode.Text

/-- Closed ranges of code points, each with its first and its last member. -/
abbrev CodeRanges := Array (Nat × Nat)

def CodeRanges.mem (ranges : CodeRanges) (code : Nat) : Bool :=
  ranges.any fun range => range.1 ≤ code && code ≤ range.2

end PCode.Text
