import TagTree.Text.Characters

/-!
# TOML lexemes

Recognisers for the pieces of a TOML text that hold no other values: blanks,
comments, strings, numbers and dates. Each takes the characters from its start
and gives its value and what is left, or nothing. A string in triple quotes
begins after a first line break and has every line break written as a single
line feed.

The four forms of strings differ in their quotes and in whether escapes are
read. Keys are bare words or strings on one line, joined by dots with blanks
around them, and their number of parts is bounded. Numbers come in four bases
with single underscores between digits; an integer has to fit 64 bits, and a
float that would round to infinity is refused although its value is not used.
Dates have the days that their month has, and leap years are counted.

All of these recognisers stop at the first character that cannot belong to them
and leave it to the caller to decide whether it may stand there.
-/
namespace TagTree.Toml

def isTab (c : Char) : Bool := c = ' ' || c = '\t'

def skipTabs (cs : List Char) : List Char := cs.dropWhile isTab

def isPrintable (c : Char) : Bool := c = '\t' || (' ' ≤ c && c ≤ '~') || 0x80 ≤ c.toNat

/-- Skip a comment, if there is one. -/
def skipComment : List Char → List Char
  | '#' :: rest => rest.dropWhile isPrintable
  | cs => cs

/-- What is left after a line that holds nothing more than blanks and a comment. -/
def lineEnd? (cs : List Char) : Option (List Char) :=
  match skipComment (skipTabs cs) with
  | [] => some []
  | rest => lineBreak? rest

/-- Skip blanks, line breaks and comments that end with a line break. Each round takes at least a
character, so the length of the text bounds their number. -/
def skipLines : Nat → List Char → Option (List Char)
  | 0, cs => some cs
  | bound + 1, cs =>
    match skipTabs cs with
    | '#' :: rest => do skipLines bound (← lineBreak? (rest.dropWhile isPrintable))
    | '\n' :: rest => skipLines bound rest
    | '\r' :: rest => do skipLines bound (← lineBreak? ('\r' :: rest))
    | rest => some rest

/-- The character of `digits` hexadecimal digits. -/
def hexEscape (digits : Nat) (cs : List Char) : Option (Char × List Char) := do
  let ds := cs.take digits
  if ds.length = digits ∧ ds.all Hex.isDigit then do
    let c ← Hex.scalar? (Hex.number ds)
    some (c, cs.drop digits)
  else none

/-- The character of an escape, after its backslash. -/
def escape : List Char → Option (Char × List Char)
  | 'b' :: rest => some ('\x08', rest)
  | 't' :: rest => some ('\t', rest)
  | 'n' :: rest => some ('\n', rest)
  | 'f' :: rest => some ('\x0c', rest)
  | 'r' :: rest => some ('\r', rest)
  | '"' :: rest => some ('"', rest)
  | '\\' :: rest => some ('\\', rest)
  | 'u' :: rest => hexEscape 4 rest
  | 'U' :: rest => hexEscape 8 rest
  | _ => none

def cons (c : Char) (r : List Char × List Char) : List Char × List Char := (c :: r.1, r.2)

def basicBody : Nat → List Char → Option (List Char × List Char)
  | 0, _ => none
  | bound + 1, cs =>
    match cs with
    | '"' :: rest => some ([], rest)
    | '\\' :: rest => do
      let (c, rest) ← escape rest
      (basicBody bound rest).map (cons c)
    | c :: rest => if isPrintable c then (basicBody bound rest).map (cons c) else none
    | [] => none

def literalBody : List Char → Option (List Char × List Char)
  | [] => none
  | c :: rest =>
    if c = '\'' then some ([], rest)
    else if isPrintable c then (literalBody rest).map (cons c) else none

def quotes (q : Char) (cs : List Char) : Nat × List Char :=
  ((cs.takeWhile (· = q)).length, cs.dropWhile (· = q))

/-- What a run of quotes means inside triple quotes: up to two are content, three or more end the
string, and up to two before the last three are content still. -/
def closing (q : Char) (n : Nat) (rest : List Char) : Option (List Char × List Char) :=
  let extra := min (n - 3) 2
  some (List.replicate extra q, List.replicate (n - 3 - extra) q ++ rest)

/-- Skip a backslash at the end of a line with the blanks and line breaks that follow. -/
def continuation? (cs : List Char) : Option (List Char) := do
  let rest ← lineBreak? (skipTabs cs)
  some (rest.dropWhile fun c => isTab c || c = '\n' || c = '\r')

/-- The body of a string in triple double quotes. -/
def longBasicBody : Nat → List Char → Option (List Char × List Char)
  | 0, _ => none
  | bound + 1, cs =>
    match cs with
    | [] => none
    | '"' :: _ =>
      let (n, rest) := quotes '"' cs
      if 3 ≤ n then closing '"' n rest
      else (longBasicBody bound rest).map fun r => (List.replicate n '"' ++ r.1, r.2)
    | '\\' :: rest =>
      match continuation? rest with
      | some after =>
        if cleanBreaks (rest.take (rest.length - after.length)) then longBasicBody bound after
        else none
      | none => do
        let (c, rest) ← escape rest
        (longBasicBody bound rest).map (cons c)
    | c :: rest =>
      match lineBreak? cs with
      | some rest => (longBasicBody bound rest).map (cons '\n')
      | none => if isPrintable c then (longBasicBody bound rest).map (cons c) else none

/-- The body of a string in triple single quotes. -/
def longLiteralBody : Nat → List Char → Option (List Char × List Char)
  | 0, _ => none
  | bound + 1, cs =>
    match cs with
    | [] => none
    | '\'' :: _ =>
      let (n, rest) := quotes '\'' cs
      if 3 ≤ n then closing '\'' n rest
      else (longLiteralBody bound rest).map fun r => (List.replicate n '\'' ++ r.1, r.2)
    | c :: rest =>
      match lineBreak? cs with
      | some rest => (longLiteralBody bound rest).map (cons '\n')
      | none => if isPrintable c then (longLiteralBody bound rest).map (cons c) else none

/-- Skip the line break that may follow the opening of a long string. -/
def skipBreak (cs : List Char) : List Char := (lineBreak? cs).getD cs

/-- A string of any of the four forms. -/
def string (cs : List Char) : Option (String × List Char) :=
  let body : Option (List Char × List Char) :=
    match cs with
    | '"' :: '"' :: '"' :: rest => longBasicBody (cs.length + 1) (skipBreak rest)
    | '"' :: rest => basicBody (cs.length + 1) rest
    | '\'' :: '\'' :: '\'' :: rest => longLiteralBody (cs.length + 1) (skipBreak rest)
    | '\'' :: rest => literalBody rest
    | _ => none
  body.map fun r => (String.ofList r.1, r.2)

def isBareKey (c : Char) : Bool :=
  ('A' ≤ c && c ≤ 'Z') || ('a' ≤ c && c ≤ 'z') || ('0' ≤ c && c ≤ '9') || c = '_' || c = '-'

def simpleKey (cs : List Char) : Option (String × List Char) :=
  match cs with
  | '"' :: rest => (basicBody (cs.length + 1) rest).map fun r => (String.ofList r.1, r.2)
  | '\'' :: rest => (literalBody rest).map fun r => (String.ofList r.1, r.2)
  | _ =>
    match cs.takeWhile isBareKey with
    | [] => none
    | key => some (String.ofList key, cs.dropWhile isBareKey)

/-- A key is made of fewer parts than this. -/
def maxDepth : Nat := 80

/-- Parts of a dotted key, each with blanks around it. -/
def keyParts : Nat → List Char → Option (List String × List Char)
  | 0, _ => none
  | bound + 1, cs => do
    let (k, rest) ← simpleKey (skipTabs cs)
    match skipTabs rest with
    | '.' :: rest => (keyParts bound rest).map fun r => (k :: r.1, r.2)
    | rest => some ([k], rest)

/-- A dotted key: the parts before the last and the last. -/
def key (cs : List Char) : Option ((List String × String) × List Char) := do
  let (parts, rest) ← keyParts (maxDepth - 1) cs
  let last ← parts.getLast?
  some ((parts.dropLast, last), rest)

/-- Digits with single underscores between them; the value is the digits alone. -/
def groupedDigits (isDigit : Char → Bool) : List Char → Option (List Char × List Char)
  | [] => none
  | c :: rest => if isDigit c then some (more (c :: rest)) else none
where
  more : List Char → List Char × List Char
    | c :: '_' :: d :: rest =>
      if isDigit c then
        if isDigit d then cons c (more (d :: rest)) else ([c], '_' :: d :: rest)
      else ([], c :: '_' :: d :: rest)
    | c :: rest => if isDigit c then cons c (more rest) else ([], c :: rest)
    | [] => ([], [])

def numeral (base : Nat) (digits : List Char) : Nat :=
  digits.foldl (fun n d => base * n + (Hex.value? d).getD 0) 0

/-- A decimal number without sign: a leading zero stands alone. -/
def unsigned (cs : List Char) : Option (List Char × List Char) :=
  match cs with
  | '0' :: rest => some (['0'], rest)
  | _ => groupedDigits Char.isDigit cs

/-- A sign, if there is one: whether it is a minus. -/
def sign : List Char → Bool × List Char
  | '+' :: rest => (false, rest)
  | '-' :: rest => (true, rest)
  | cs => (false, cs)

def isOctal (c : Char) : Bool := '0' ≤ c && c ≤ '7'

def isBinary (c : Char) : Bool := c = '0' || c = '1'

/-- Number of integers that are not negative. -/
def intRange : Nat := 0x8000000000000000

/-- An integer; it has to fit 64 bits. -/
def integer (cs : List Char) : Option (Int × List Char) :=
  let based (base : Nat) (isDigit : Char → Bool) (rest : List Char) : Option (Int × List Char) := do
    let (ds, rest) ← groupedDigits isDigit rest
    let n := numeral base ds
    if n < intRange then some ((n : Int), rest) else none
  match cs with
  | '0' :: 'x' :: rest => based 16 Hex.isDigit rest
  | '0' :: 'o' :: rest => based 8 isOctal rest
  | '0' :: 'b' :: rest => based 2 isBinary rest
  | _ => do
    let (minus, rest) := sign cs
    let (ds, rest) ← unsigned rest
    let n := numeral 10 ds
    if minus then if n ≤ intRange then some (-(n : Int), rest) else none
    else if n < intRange then some ((n : Int), rest) else none

/-- Whether `m · 10 ^ e` rounds to a number above the largest double. -/
def exceedsDouble (m : Nat) (e : Int) : Bool :=
  let limit := (1 <<< 1024) - (1 <<< 970)
  if m = 0 then false
  else if 0 ≤ e then 400 < e || limit ≤ m * Nat.pow 10 e.toNat
  else if (Nat.toDigits 10 m).length < (-e).toNat then false
  else limit * Nat.pow 10 (-e).toNat ≤ m

/-- An exponent, after its mark. -/
def exponent (cs : List Char) : Option (Int × List Char) := do
  let (minus, rest) := sign cs
  let (ds, rest) ← groupedDigits Char.isDigit rest
  let n : Int := numeral 10 ds
  some (if minus then -n else n, rest)

/-- What is left after an exponent, and its value; no exponent is zero. -/
def optExponent (cs : List Char) : Option (Int × List Char) :=
  match cs with
  | 'e' :: rest => exponent rest
  | 'E' :: rest => exponent rest
  | _ => some (0, cs)

/-- A float: a number with a fraction, an exponent or both, or a special value. Positive numbers that
are too large are refused. -/
def float (cs : List Char) : Option (List Char) :=
  let (minus, rest) := sign cs
  match rest with
  | 'i' :: 'n' :: 'f' :: rest => some rest
  | 'n' :: 'a' :: 'n' :: rest => some rest
  | _ => do
    let (whole, rest) ← unsigned rest
    let (frac, exp, rest) ← match rest with
      | '.' :: rest => do
        let (frac, rest) ← groupedDigits Char.isDigit rest
        let (exp, rest) ← optExponent rest
        some (frac, exp, rest)
      | 'e' :: rest => do
        let (exp, rest) ← exponent rest
        some ([], exp, rest)
      | 'E' :: rest => do
        let (exp, rest) ← exponent rest
        some ([], exp, rest)
      | _ => none
    let tooLarge := exceedsDouble (numeral 10 (whole ++ frac)) (exp - frac.length)
    if tooLarge && !minus then none else some rest

def fixedDigits (n : Nat) (cs : List Char) : Option (Nat × List Char) :=
  let ds := cs.take n
  if ds.length = n ∧ ds.all Char.isDigit then some (numeral 10 ds, cs.drop n) else none

def ranged (n low high : Nat) (cs : List Char) : Option (Nat × List Char) := do
  let (v, rest) ← fixedDigits n cs
  if low ≤ v ∧ v ≤ high then some (v, rest) else none

def drop? (c : Char) : List Char → Option (List Char)
  | d :: rest => if c = d then some rest else none
  | [] => none

def isLeapYear (y : Nat) : Bool := y % 4 = 0 && (y % 100 != 0 || y % 400 = 0)

def daysIn (year month : Nat) : Nat :=
  if month = 2 then if isLeapYear year then 29 else 28
  else if month = 4 ∨ month = 6 ∨ month = 9 ∨ month = 11 then 30
  else 31

def fullDate (cs : List Char) : Option (List Char) := do
  let (year, rest) ← fixedDigits 4 cs
  let (month, rest) ← ranged 2 1 12 (← drop? '-' rest)
  let (_, rest) ← ranged 2 1 (daysIn year month) (← drop? '-' rest)
  some rest

/-- A time of day, perhaps with a fraction of a second. -/
def clock (cs : List Char) : Option (List Char) := do
  let (_, rest) ← ranged 2 0 23 cs
  let (_, rest) ← ranged 2 0 59 (← drop? ':' rest)
  let (_, rest) ← ranged 2 0 60 (← drop? ':' rest)
  match rest with
  | '.' :: d :: more => some (if d.isDigit then more.dropWhile Char.isDigit else rest)
  | _ => some rest

/-- Skip the offset from universal time, if there is one. -/
def skipOffset (cs : List Char) : Option (List Char) :=
  match cs with
  | 'Z' :: rest => some rest
  | 'z' :: rest => some rest
  | c :: rest =>
    if c = '+' ∨ c = '-' then do
      let (_, rest) ← ranged 2 0 23 rest
      let (_, rest) ← ranged 2 0 59 (← drop? ':' rest)
      some rest
    else some cs
  | [] => some cs

/-- A date, a time or both. -/
def dateTime (cs : List Char) : Option (List Char) :=
  match fullDate cs with
  | some rest =>
    match rest with
    | c :: after =>
      if c = 'T' ∨ c = 't' ∨ c = ' ' then
        match clock after with
        | some rest => skipOffset rest
        | none => some rest
      else some rest
    | [] => some rest
  | none => clock cs

end TagTree.Toml
