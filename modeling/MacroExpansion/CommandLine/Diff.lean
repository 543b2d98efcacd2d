/-!
# Differences between two lines

Two lines are compared word by word, where words are what stands between blanks.  A longest common
subsequence of words is found by a table of lengths and a walk back through it, and the two lines
are then merged along it into runs of words that are the same, removed or added.
-/

namespace MacroExpansion.Diff

/-- A run of words. -/
inductive Run where
  | same (words : List String)
  | removed (words : List String)
  | added (words : List String)
  deriving DecidableEq, Repr

/-- The words of a line, of which there is one at least. -/
def split (line : String) : List String := (line.toList.splitOn ' ').map String.ofList

def join (words : List String) : String := " ".intercalate words

/-! ## The table -/

/-- One row of the table of lengths.  `above` is the row before it, `corner` and `left` are the
entries before the ones to come. -/
def row (word : String) : (words : List String) → (above : List Nat) → (corner left : Nat) →
    List Nat
  | [], _, _, _ => []
  | w :: words, above, corner, left =>
    let up := above.headD 0
    let entry := if word = w then corner + 1 else max left up
    entry :: row word words above.tail up entry

/-- The rows of the table after a given one, for the words of the old line. -/
def rows (new : List String) : (old : List String) → (above : List Nat) → List (List Nat)
  | [], _ => []
  | word :: old, above =>
    let current := row word new above 0 0
    current :: rows new old current

/-- The lengths of longest common subsequences of the beginnings of two lines, row by row. -/
def table (old new : List String) : List Nat := (rows new old []).flatten

/-! ## The common words -/

/-- Walks back through the table from the entry of the `i`-th old and the `j`-th new word, and puts
the common words found in front of `found`.  The walk goes left where the entry on the left is
larger than the one above, and up otherwise; entries are numbered row by row, so that the one left
of a row's first entry is the last one of the row above.  `fuel` bounds the number of steps. -/
def walkBack (old new : Array String) (table : Array Nat) :
    (fuel i j : Nat) → (found : List String) → List String
  | 0, _, _, found => found
  | fuel + 1, i, j, found =>
    let word := old.getD i ""
    if word = new.getD j "" then
      if i = 0 ∨ j = 0 then word :: found
      else walkBack old new table fuel (i - 1) (j - 1) (word :: found)
    else if i = 0 ∧ j = 0 then found
    else if i = 0 ∨ table.getD (i * new.size + j - 1) 0 > table.getD ((i - 1) * new.size + j) 0 then
      if j = 0 then found else walkBack old new table fuel i (j - 1) found
    else walkBack old new table fuel (i - 1) j found

/-- The common words of two lines. -/
def common (old new : List String) : List String :=
  walkBack old.toArray new.toArray (table old new).toArray (old.length + new.length)
    (old.length - 1) (new.length - 1) []

/-! ## Merging -/

/-- The longest common beginning of three lists, and what is left of each. -/
def takeSame : (old new shared : List String) →
    List String × List String × List String × List String
  | o :: old, n :: new, s :: shared =>
    if o = s ∧ n = s then
      let (run, rest) := takeSame old new shared
      (o :: run, rest)
    else ([], o :: old, n :: new, s :: shared)
  | old, new, shared => ([], old, new, shared)

/-- A run, unless it is empty. -/
def runOf (kind : List String → Run) (words : List String) : List Run :=
  if words.isEmpty then [] else [kind words]

/-- Merges two lines along their common words.  `fuel` bounds the number of rounds. -/
def merge : (fuel : Nat) → (old new shared : List String) → List Run
  | 0, _, _, _ => []
  | fuel + 1, old, new, shared =>
    if old.isEmpty && new.isEmpty then []
    else
      let (same, old, new, shared) := takeSame old new shared
      let differs := fun word => shared.head? != some word
      runOf .same same ++ runOf .removed (old.takeWhile differs)
        ++ runOf .added (new.takeWhile differs)
        ++ merge fuel (old.dropWhile differs) (new.dropWhile differs) shared

/-- The words to merge; an empty line has none. -/
def wordsToMerge (line : String) : List String := if line.isEmpty then [] else split line

/-- The runs by which a new line differs from an old one. -/
def runs (old new : String) : List Run :=
  let shared := join (common (split old) (split new))
  let olds := wordsToMerge old
  let news := wordsToMerge new
  merge (olds.length + news.length) olds news (wordsToMerge shared)

/-- A run as a line of its own. -/
def Run.render : Run → String
  | same words => " " ++ join words
  | removed words => "-" ++ join words
  | added words => "+" ++ join words

end MacroExpansion.Diff
