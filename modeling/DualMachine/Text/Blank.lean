import DualMachine.Text.Ranges

/-!
# Blank characters and words

A text is read as its words: the maximal runs of characters that are not blank. Blank are
the characters with the Unicode property White_Space, so a no-break space separates words
as any other does. Mnemonics are compared without the case of their ASCII letters, and of no
others.
-/

namespace DualMachine.Text

def blankRanges : List (Nat × Nat) :=
  [(0x09, 0x0D), (0x20, 0x20), (0x85, 0x85), (0xA0, 0xA0), (0x1680, 0x1680),
   (0x2000, 0x200A), (0x2028, 0x2029), (0x202F, 0x202F), (0x205F, 0x205F),
   (0x3000, 0x3000)]

def isBlank (c : Char) : Bool := inRanges blankRanges c

/-- The words of `chars`, the first of which already has the letters `word`. -/
def wordsFrom : (word chars : List Char) → List (List Char)
  | [], [] => []
  | word, [] => [word]
  | word, c :: cs =>
    if isBlank c then
      if word.isEmpty then wordsFrom [] cs else word :: wordsFrom [] cs
    else wordsFrom (word ++ [c]) cs

def words (text : String) : List String :=
  (wordsFrom [] text.toList).map String.ofList

def foldCase (text : String) : List Char := text.toList.map Char.toLower

end DualMachine.Text
