import ServiceContract.Text.Unicode

/-! # Words of an identifier and their case

An identifier is cut into words at every character that is no letter or number, before an
uppercase letter that follows a lowercase one, and before the last capital of a run of capitals
that a lowercase letter follows. The case styles write the words in their own case with their own
separator.
-/

namespace ServiceContract.WordCase

open Text Unicode

/-- The case of the last cased character of the word being read. -/
inductive Mode
  | none
  | lower
  | upper
  deriving DecidableEq, Repr

/-- Cuts a run of letters and numbers into words. `word` holds the current word, last character
first. -/
def wordsOfRun (word : List Char) (mode : Mode) : List Char → List (List Char)
  | [] => []
  | [c] => [(c :: word).reverse]
  | c :: d :: cs =>
    let next := if isLowercase c then .lower else if isUppercase c then .upper else mode
    if next = .lower && isUppercase d then
      (c :: word).reverse :: wordsOfRun [] .none (d :: cs)
    else if mode = .upper && isUppercase c && isLowercase d then
      word.reverse :: wordsOfRun [c] .none (d :: cs)
    else
      wordsOfRun (c :: word) next (d :: cs)

/-- The words of an identifier. -/
def words (s : String) : List (List Char) :=
  (pieces (fun c => !isAlphanumeric c) s.toList).flatMap (wordsOfRun [] .none)

/-- A word in lowercase; a sigma at its end has its final form. -/
def lowerWord : List Char → List Char
  | [] => []
  | [c] => if c == 'Σ' then ['ς'] else lower c
  | c :: cs => lower c ++ lowerWord cs

def upperWord (w : List Char) : List Char := w.flatMap upper

/-- A word with a capital first letter and the rest in lowercase. -/
def capitalized : List Char → List Char
  | [] => []
  | c :: cs => upper c ++ lowerWord cs

def joined (sep : String) (ws : List (List Char)) : String :=
  join sep (ws.map String.ofList)

def upperCamel (s : String) : String := joined "" ((words s).map capitalized)

def lowerCamel (s : String) : String :=
  match words s with
  | [] => ""
  | w :: ws => joined "" (lowerWord w :: ws.map capitalized)

def snake (s : String) : String := joined "_" ((words s).map lowerWord)

def shoutySnake (s : String) : String := joined "_" ((words s).map upperWord)

def kebab (s : String) : String := joined "-" ((words s).map lowerWord)

def shoutyKebab (s : String) : String := joined "-" ((words s).map upperWord)

/-- Renames an identifier by the rule of the given name; an unknown rule changes nothing but the
raw marker, which is always removed. -/
def rename (ident rule : String) : String :=
  let ident := trimStartMatches "r#" ident
  match rule with
  | "lowercase" => toLower ident
  | "UPPERCASE" => toUpper ident
  | "PascalCase" => upperCamel ident
  | "camelCase" => lowerCamel ident
  | "snake_case" => snake ident
  | "SCREAMING_SNAKE_CASE" => shoutySnake ident
  | "kebab-case" => kebab ident
  | "SCREAMING-KEBAB-CASE" => shoutyKebab ident
  | _ => ident

end ServiceContract.WordCase
