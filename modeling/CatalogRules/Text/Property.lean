import CatalogRules.Text.Blank
import CatalogRules.Text.Category

/-! # Properties of characters

The properties `Lowercase`, `Uppercase` and `Alphabetic` are those of the general categories with
some further characters, and the characters of words are the alphabetic ones, marks, decimal digits,
connecting punctuation and the two joiners. -/

namespace CatalogRules.Text

/-- Whether a number lies in one of the ranges. -/
def inRanges (ranges : Array (Nat × Nat)) (n : Nat) : Bool :=
  ranges.any fun (low, high) => low ≤ n && n ≤ high

/-- Reads ranges that are separated by commas, each as the distance of its first number from the
end of the range before and, after a hyphen, the number of the further members. -/
def readRanges (text : String) : Array (Nat × Nat) :=
  let step (s : Array (Nat × Nat) × Nat × Nat × Option Nat) (c : Char) :=
    let (done, last, first, more) := s
    if c = ',' then
      (done.push (last + first, last + first + more.getD 0), last + first + more.getD 0, 0, none)
    else if c = '-' then (done, last, first, some 0)
    else
      let d := c.toNat - '0'.toNat
      match more with
      | none => (done, last, 10 * first + d, none)
      | some m => (done, last, first, some (10 * m + d))
  ((text.toList ++ [',']).foldl step (#[], 0, 0, none)).1

/-- The lower-case characters that are not letters of the lower case. -/
def otherLowercase : Array (Nat × Nat) := readRanges
  ("170,16,502-8,8-1,31-4,97,53,3458,3120-62,14,35-36,690,14,17-12,212-15,849-25,1939-1,31263-1" ++
    ",211,130-2,4-1,867-3,10,23575,3-2,2-41,2-8,55414-61")

/-- The upper-case characters that are not letters of the upper case. -/
def otherUppercase : Array (Nat × Nat) := readRanges
  "8544-15,839-25,117857-25,7-25,7-25"

/-- The alphabetic characters that are neither letters nor letter numbers nor cased. -/
def otherAlphabetic : Array (Nat × Nat) := readRanges
  ("1456-13,2,2-1,2-1,2,73-10,49-12,2-6,17,102-6,5-3,3-1,5,36,31-15,103-10,102-1,4-8,2-2,2-3,16" ++
    "8-11,4-6,7-19,55-1,3-14,2-1,6-2,11-1,30-2,59-6,3-1,3-1,11,11-1,30-2,59-4,5-1,3-1,5,31-1,4,1" ++
    "2-2,59-7,2-2,2-1,22-1,23-2,5-2,59-6,3-1,3-1,10-1,11-1,31,60-4,4-2,2-2,11,41-4,58-6,2-2,2-2," ++
    "9-1,12-1,30-2,59-6,2-2,2-2,9-1,12-1,16,13-3,59-6,2-2,2-2,11,11-1,30-2,76-5,2,2-7,19-1,62,3-" ++
    "6,19,100,3-5,2-1,17,164-18,10-10,2-35,111-11,2,3-3,24-3,5-2,2-2,3-6,4-3,14-11,2,11-3,1653-1" ++
    ",31-1,31-1,31-1,67-18,189-1,35,119-11,5-8,223-4,58-9,3-19,75-1,12-2,50-4,49-14,61-2,31-8,3-" ++
    "1,58-10,51-18,433-13,4076-31,30837-7,35-1,355,9,24-4,89-1,51-15,2,58,39-4,29-11,46-3,49-11," ++
    "38,68-13,13,9-1,46-2,51,2-2,3-1,6,45-4,6,238-7,20276,2136-4,1671-2,2-1,6-3,789-3,388-1,340-" ++
    "2,54-13,46-1,12-2,46-8,10,62-2,37-11,19-1,58-2,49-12,15-1,93-8,3,7,3,158-9,24-3,59-6,3-1,3-" ++
    "1,11,11-1,210-12,2-2,107-17,238-6,3-6,30-1,83-14,2,107-10,104-13,258-12,248-5,2-1,3-1,4,2,1" ++
    "43-6,3-5,5,29-9,43-4,2-3,19-10,47-13,408-7,2-6,84-21,2-13,123-5,4,2-1,2-2,2,4,67-4,2-1,2-3," ++
    "349-3,10-1,2,49-6,4-2,20495,2-54,8-3,94-1,19629,9058-6,2-16,3-6,2-1,2-4,101,2232")

/-- The property `Lowercase`. -/
def isLowercase (n : Nat) : Bool := Category.ofCode n == .ll || inRanges otherLowercase n

/-- The property `Uppercase`. -/
def isUppercase (n : Nat) : Bool := Category.ofCode n == .lu || inRanges otherUppercase n

/-- The property `Alphabetic`. -/
def isAlphabetic (n : Nat) : Bool :=
  if n < 128 then (65 ≤ n && n ≤ 90) || (97 ≤ n && n ≤ 122)
  else [Category.lu, .ll, .lt, .lm, .lo, .nl].contains (Category.ofCode n) ||
    inRanges otherAlphabetic n || inRanges otherLowercase n || inRanges otherUppercase n

/-- The decimal digits. -/
def isDecimal (n : Nat) : Bool :=
  if n < 128 then 48 ≤ n && n ≤ 57 else Category.ofCode n == .nd

/-- Letters, letter numbers and other numbers. -/
def isNumeric (n : Nat) : Bool := [Category.nd, .nl, .no].contains (Category.ofCode n)

/-- The characters of words. -/
def isWord (n : Nat) : Bool :=
  if n < 128 then isAlphabetic n || isDecimal n || n == 95
  else isAlphabetic n || n == 0x200C || n == 0x200D ||
    [Category.mn, .mc, .me, .nd, .pc].contains (Category.ofCode n)

end CatalogRules.Text
