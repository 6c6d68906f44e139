/-!
# Classes of characters

A class of characters is given by the runs of code points that belong to it, each as its
first and its last member.
-/

namespace DualMachine.Text

def inRanges (ranges : List (Nat × Nat)) (c : Char) : Bool :=
  ranges.any fun (first, last) => first ≤ c.toNat && c.toNat ≤ last

end DualMachine.Text
