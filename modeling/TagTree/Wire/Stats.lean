import TagTree.Registry.Loading
import TagTree.Wire.Packing

/-!
# Send counts

How often each tag was sent, alone and inside containers. From the counts a
report ranks the tags and prices every width of the first index segment: a tag
among the first `2 ^ n` ranks costs `n + 1` bits and any other one bit more than
a full index. It suggests the cheapest width, the least one among equals, and
the tags to put first; if no width saves anything it suggests an index in one
field.

Counts are kept in the order of first sends, and a tag has one entry. Ranking
sorts by the number of sends, more first, and by name among equals, so that the
ranking depends on the counts alone and on no order of the sends. The invalid
tag is counted and not ranked.

The suggestion is a search over the widths of the first segment below the full
width. It starts from an index in one field, which saves nothing, and takes a
width only if it saves more than the best so far. The tags to put first are as
many as the suggested segment can tell apart, by rank. The text of a report is
written so that its last lines can be put into a settings file.
-/
namespace TagTree

structure SendCount where
  alone : Nat := 0
  inside : Nat := 0
deriving DecidableEq, Repr, Inhabited

def SendCount.total (c : SendCount) : Nat := c.alone + c.inside

/-- The counts of the tags that were sent; each tag occurs once. -/
structure SendStats where
  counts : List (Tag × SendCount)
deriving DecidableEq, Repr, Inhabited

namespace SendStats

def empty : SendStats := ⟨[]⟩

def count (s : SendStats) (t : Tag) : SendCount := (s.counts.lookup t).getD {}

/-- Change the count of one tag, which starts at zero. -/
def modify (change : SendCount → SendCount) (t : Tag) :
    List (Tag × SendCount) → List (Tag × SendCount)
  | [] => [(t, change {})]
  | (u, n) :: rest => if t = u then (u, change n) :: rest else (u, n) :: modify change t rest

def recordAlone (s : SendStats) (t : Tag) : SendStats :=
  ⟨modify (fun n => { n with alone := n.alone + 1 }) t s.counts⟩

def recordInside (s : SendStats) (t : Tag) : SendStats :=
  ⟨modify (fun n => { n with inside := n.inside + 1 }) t s.counts⟩

def total (s : SendStats) : Nat := s.counts.foldr (fun e n => e.2.total + n) 0

def isEmpty (s : SendStats) : Bool := s.counts.isEmpty

/-- Whether the first tag ranks before the second: more sends first, then the smaller name. -/
def ranksBefore (a b : Tag × SendCount) : Bool :=
  b.2.total < a.2.total || (a.2.total == b.2.total && a.1.name < b.1.name)

def insertRanked (a : Tag × SendCount) : List (Tag × SendCount) → List (Tag × SendCount)
  | [] => [a]
  | b :: rest => if ranksBefore b a then b :: insertRanked a rest else a :: b :: rest

/-- The valid tags by rank. -/
def ranked (s : SendStats) : List (Tag × SendCount) :=
  (s.counts.filter (·.1.isValid)).foldr insertRanked []

/-- Bits of the tag at `rank` when the first segment has `bits` of `width`. -/
def price (width bits rank : Nat) : Nat := if rank < Packing.range bits then bits + 1 else width + 1

/-- Bits saved by the tags from `rank` on, against an index in one field. -/
def savingFrom (width bits : Nat) : Nat → List (Tag × SendCount) → Int
  | _, [] => 0
  | rank, e :: rest =>
    ((width : Int) - price width bits rank) * e.2.total + savingFrom width bits (rank + 1) rest

/-- Bits saved by a first segment of `bits`. -/
def saving (width : Nat) (ranked : List (Tag × SendCount)) (bits : Nat) : Int :=
  savingFrom width bits 0 ranked

/-- The first of `widths` whose saving is largest and above that of `best`. -/
def cheapest (gain : Nat → Int) : List Nat → Nat × Int → Nat × Int
  | [], best => best
  | bits :: rest, best =>
    cheapest gain rest (if best.2 < gain bits then (bits, gain bits) else best)

end SendStats

structure SendReport where
  entries : List (Tag × SendCount)
  /-- Width of an index. -/
  width : Nat
  /-- Suggested width of the first segment. -/
  firstBits : Nat
  saved : Int
  /-- Suggested commonly replicated tags. -/
  common : List String
deriving DecidableEq, Repr, Inhabited

def SendStats.report (s : SendStats) (width : Nat) : SendReport :=
  let entries := s.ranked
  let widths := (List.range (width - 1)).map (· + 1)
  let (firstBits, saved) := SendStats.cheapest (SendStats.saving width entries) widths (width, 0)
  { entries, width, firstBits, saved
    common := if firstBits < width then (entries.take (Packing.range firstBits)).map (·.1.name) else [] }

namespace SendReport

def padLeft (width : Nat) (s : String) : String :=
  String.ofList (List.replicate (width - s.length) ' ') ++ s

def line (e : Tag × SendCount) : String :=
  "# " ++ padLeft 8 (toString e.2.total) ++ " total " ++ padLeft 8 (toString e.2.alone)
    ++ " single " ++ padLeft 8 (toString e.2.inside) ++ " in container  " ++ e.1.display ++ "\n"

/-- The ranking as comments and the suggestion as settings. -/
def text (r : SendReport) : String :=
  let names := String.intercalate ", " (r.common.map fun n => "\"" ++ n ++ "\"")
  "# tag replication report\n" ++ String.join (r.entries.map line)
    ++ s!"# {r.saved} bits saved with a {r.firstBits}-bit first segment "
    ++ s!"(full index is {r.width} bits)\n"
    ++ s!"net_index_first_bit_segment = {r.firstBits}\n"
    ++ "commonly_replicated_tags = [" ++ names ++ "]\n"

end SendReport
end TagTree
