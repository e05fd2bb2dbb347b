/-!
# TOML strings

Four kinds of strings: with escapes or without, and on one line or on several. A reader starts after
the opening quotes and gives the text and what follows the closing quotes. Line endings are single
line feeds here.
-/

namespace Geodesic.Toml

def isPlain (c : Char) : Bool :=
  c = '\t' || (0x20 ≤ c.toNat && c.toNat ≠ 0x7F)

def escapeLetter? : Char → Option Char
  | 'b' => some '\x08'
  | 't' => some '\t'
  | 'n' => some '\n'
  | 'f' => some '\x0c'
  | 'r' => some '\r'
  | '"' => some '"'
  | '\\' => some '\\'
  | _ => none

def codeLength? : Char → Option Nat
  | 'u' => some 4
  | 'U' => some 8
  | _ => none

def hexDigit? (c : Char) : Option Nat :=
  if c.isDigit then some (c.toNat - '0'.toNat)
  else if 'a' ≤ c ∧ c ≤ 'f' then some (c.toNat - 'a'.toNat + 10)
  else if 'A' ≤ c ∧ c ≤ 'F' then some (c.toNat - 'A'.toNat + 10)
  else none

/-- The character of a code point; surrogates have none. -/
def scalar? (n : Nat) : Option Char :=
  if n.isValidChar then some (Char.ofNat n) else none

/-- Where a reader stands in a string with escapes. -/
inductive Escape where
  /-- Between characters. -/
  | none
  /-- After a backslash. -/
  | letter
  /-- After a backslash and blanks, where only the end of the line may follow. -/
  | lineEnd
  /-- After an escaped line ending, where blanks and line endings are dropped. -/
  | dropping
  /-- Before this many more digits of a code point that has begun. -/
  | code (digits value : Nat)

def escapeStep (acc : List Char) (c : Char) : Escape → Option (Escape × List Char)
  | .letter =>
      match escapeLetter? c, codeLength? c with
      | some d, _ => some (.none, d :: acc)
      | _, some k => some (.code k 0, acc)
      | _, _ => Option.none
  | .code digits value => do
      let value := 16 * value + (← hexDigit? c)
      if digits ≤ 1 then return (.none, (← scalar? value) :: acc)
      else return (.code (digits - 1) value, acc)
  | _ => Option.none

/-- The rest of a string on one line, with escapes; `acc` is the text so far, latest first. -/
def basicFrom (state : Escape) (acc : List Char) : List Char → Option (List Char × List Char)
  | [] => none
  | c :: rest =>
      match state with
      | .none =>
          if c = '"' then some (acc.reverse, rest)
          else if c = '\\' then basicFrom .letter acc rest
          else if isPlain c then basicFrom .none (c :: acc) rest
          else none
      | state =>
          match escapeStep acc c state with
          | some (state, acc) => basicFrom state acc rest
          | none => none

def basic (cs : List Char) : Option (List Char × List Char) :=
  basicFrom .none [] cs

def literal (cs : List Char) : Option (List Char × List Char) :=
  let (text, rest) := cs.span fun c => isPlain c && c ≠ '\''
  match rest with
  | '\'' :: rest => some (text, rest)
  | _ => none

def isPlainOrEnd (c : Char) : Bool :=
  isPlain c || c = '\n'

/-- The rest of a string on several lines, with escapes. Up to two quotes in a row belong to the
text; `quotes` counts those that have just been passed. Three close the string, and up to two more
before them still belong to it. -/
def multiBasicFrom (state : Escape) (quotes : Nat) (acc : List Char) :
    List Char → Option (List Char × List Char)
  | [] => if 3 ≤ quotes then some ((List.replicate (quotes - 3) '"' ++ acc).reverse, []) else none
  | c :: rest =>
      let plain (state : Escape) : Option (List Char × List Char) :=
        if c = '"' then
          if quotes = 4 then some (('"' :: '"' :: acc).reverse, rest)
          else multiBasicFrom .none (quotes + 1) acc rest
        else if 3 ≤ quotes then
          some ((List.replicate (quotes - 3) '"' ++ acc).reverse, c :: rest)
        else
          let acc := List.replicate quotes '"' ++ acc
          if c = '\\' then multiBasicFrom .letter 0 acc rest
          else if isPlainOrEnd c then multiBasicFrom state 0 (c :: acc) rest
          else none
      match state with
      | .none => plain .none
      | .dropping =>
          if c = ' ' ∨ c = '\t' ∨ c = '\n' then multiBasicFrom .dropping 0 acc rest
          else plain .none
      | .lineEnd =>
          if c = '\n' then multiBasicFrom .dropping 0 acc rest
          else if c = ' ' ∨ c = '\t' then multiBasicFrom .lineEnd 0 acc rest
          else none
      | .letter =>
          if c = '\n' then multiBasicFrom .dropping 0 acc rest
          else if c = ' ' ∨ c = '\t' then multiBasicFrom .lineEnd 0 acc rest
          else
            match escapeStep acc c .letter with
            | some (state, acc) => multiBasicFrom state 0 acc rest
            | none => none
      | .code digits value =>
          match escapeStep acc c (.code digits value) with
          | some (state, acc) => multiBasicFrom state 0 acc rest
          | none => none

def multiLiteralFrom (quotes : Nat) (acc : List Char) : List Char → Option (List Char × List Char)
  | [] => if 3 ≤ quotes then some ((List.replicate (quotes - 3) '\'' ++ acc).reverse, []) else none
  | c :: rest =>
      if c = '\'' then
        if quotes = 4 then some (('\'' :: '\'' :: acc).reverse, rest)
        else multiLiteralFrom (quotes + 1) acc rest
      else if 3 ≤ quotes then
        some ((List.replicate (quotes - 3) '\'' ++ acc).reverse, c :: rest)
      else if isPlainOrEnd c then
        multiLiteralFrom 0 (c :: (List.replicate quotes '\'' ++ acc)) rest
      else none

/-- A line ending right after the opening quotes is not part of the text. -/
def dropFirstEnd : List Char → List Char
  | '\n' :: rest => rest
  | cs => cs

def multiBasic (cs : List Char) : Option (List Char × List Char) :=
  multiBasicFrom .none 0 [] (dropFirstEnd cs)

def multiLiteral (cs : List Char) : Option (List Char × List Char) :=
  multiLiteralFrom 0 [] (dropFirstEnd cs)

def quoted? : List Char → Option (List Char × List Char)
  | '"' :: '"' :: '"' :: rest => multiBasic rest
  | '"' :: rest => basic rest
  | '\'' :: '\'' :: '\'' :: rest => multiLiteral rest
  | '\'' :: rest => literal rest
  | _ => none

end Geodesic.Toml
