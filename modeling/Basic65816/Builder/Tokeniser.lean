import Basic65816.Machine.Tokens

/-!
# The builder's tokeniser (`tokeniser.py`)

A Python string is the list of its `ord` values, and a failed assertion is `none`. The character
classes are those of ASCII text.
-/

namespace Basic65816.Builder

/-- Python's `isspace` on the codes up to 255. -/
def isSpace (c : ℕ) : Bool :=
  c == 32 || (9 ≤ c && c ≤ 13) || (28 ≤ c && c ≤ 31) || c == 0x85 || c == 0xA0

/-- Python's `strip`. -/
def strip (s : List ℕ) : List ℕ := (s.dropWhile isSpace).rdropWhile isSpace

def isLetter (c : ℕ) : Bool := (65 ≤ c && c ≤ 90) || (97 ≤ c && c ≤ 122)

def isDigit (c : ℕ) : Bool := 48 ≤ c && c ≤ 57

def isAlphanumeric (c : ℕ) : Bool := isLetter c || isDigit c

/-- `Tokeniser.tokens`: the token list sorted by name length, longest first. -/
def sortedTokens : List Token :=
  tokenList.insertionSort fun a b => b.name.length ≤ a.name.length

/-- `findToken`: the first token the text begins with, or is equal to. -/
def findToken (s : List ℕ) (exactMatch : Bool) : Option Token :=
  let s := s.map lowerChar
  sortedTokens.find? fun e => e.name.isPrefixOf s && (!exactMatch || s == e.name)

/-- `convert`: character to tokenised format equivalent. -/
def convert (c : ℕ) : ℕ := if 65 ≤ c ∧ c ≤ 90 then c - 65 + 1 else c - 48 + 27

/-- Pad a list out to even length with zero. -/
def padEven (l : List ℕ) : List ℕ := if l.length % 2 = 0 then l else l ++ [0]

/-- The words of an identifier: pairs of characters, the continuation marker on all but the last,
and the type markers. -/
def identWords (isString isArray : Bool) : List ℕ → List ℕ
  | a :: b :: rest =>
    let word := 0xC000 + a + b * 45
    let word := if rest = [] then word else word + 0x0800
    let word := if isArray then word + 0x1000 else word
    let word := if isString then word + 0x2000 else word
    word :: identWords isString isArray rest
  | _ => []

/-- The words of a byte list of even length. -/
def byteWords : List ℕ → List ℕ
  | a :: b :: rest => (a + b * 256) :: byteWords rest
  | _ => []

/-- The value of a list of decimal digits. -/
def intOf (ds : List ℕ) : ℕ := ds.foldl (fun v d => 10 * v + (d - 48)) 0

/-- The optional suffix `c` of an identifier: whether it is there, and the text after it. -/
def takeSuffix (c : ℕ) : List ℕ → Bool × List ℕ
  | [] => (false, [])
  | d :: s => if d = c then (true, s) else (false, d :: s)

/-- The identifier case of `tokeniseOne`: the text `s` begins with a letter. -/
def tokeniseIdent (s : List ℕ) : List ℕ × List ℕ :=
  let name := s.takeWhile isAlphanumeric
  let (dollar, rest) := takeSuffix 36 (s.dropWhile isAlphanumeric)
  let (paren, rest) := takeSuffix 40 rest
  let whole := name ++ (if dollar then [36] else []) ++ (if paren then [40] else [])
  match findToken whole true with
  | some t => ([t.id], rest)
  | none => (identWords dollar paren (padEven ((name.map upperChar).map convert)), rest)

/-- The words of a constant. -/
def constWords (value : ℕ) : List ℕ :=
  (if 32768 ≤ value then [value / 0x8000 ||| 0x1000] else []) ++ [value % 0x8000 + 0x4000]

/-- The words of a quoted string. -/
def stringWords (chars : List ℕ) : List ℕ :=
  let string := padEven (chars.length :: chars)
  (string.length / 2 * 2 + 2) :: byteWords string

/-- The string case of `tokeniseOne`: `s` is the text after the opening quote. -/
def tokeniseString (s : List ℕ) : Option (List ℕ × List ℕ) :=
  let chars := s.takeWhile (· != 34)
  match s.dropWhile (· != 34) with
  | [] => none
  | _ :: rest => if chars.length < 252 then some (stringWords chars, rest) else none

/-- `tokeniseOne`: one token, constant, identifier or quoted string, and the text after it. -/
def tokeniseOne (s : List ℕ) : Option (List ℕ × List ℕ) :=
  if (s.head?.map isLetter).getD false then some (tokeniseIdent s)
  else
    match findToken s false with
    | some t => some ([t.id], s.drop t.name.length)
    | none =>
      if (s.head?.map isDigit).getD false then
        let value := intOf (s.takeWhile isDigit)
        if value < 32768 * 4096 then some (constWords value, s.dropWhile isDigit) else none
      else
        match s with
        | 34 :: s => tokeniseString s
        | _ => none

/-- The loop of `tokenise`. Every round consumes a character, so that the length of the text bounds
the number of rounds. -/
def tokeniseLoop : ℕ → List ℕ → Option (List ℕ)
  | 0, s => if s = [] then some [] else none
  | n + 1, s =>
    if s = [] then some []
    else do
      let (words, rest) ← tokeniseOne s
      let more ← tokeniseLoop n (strip rest)
      some (words ++ more)

/-- `tokenise`: the words of a line of text. -/
def tokenise (s : List ℕ) : Option (List ℕ) := tokeniseLoop s.length (strip s)

end Basic65816.Builder
