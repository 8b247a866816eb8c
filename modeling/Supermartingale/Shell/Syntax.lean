import Supermartingale.Text.Replace

/-!
# The language of scripts

A script is a sequence of commands. The words of a command are made of parts: characters as they
stand, characters in quotes, and references to parameters, to the output of commands and to the
values of arithmetic expressions.
-/

namespace Supermartingale.Shell

inductive Change where
  | otherwise
  | assign
  | demand
  | instead
  | dropEnd (longest : Bool)
  | dropStart (longest : Bool)
deriving DecidableEq, Repr

mutual

inductive Part where
  | plain (cs : List Char)
  | kept (cs : List Char)
  | parameter (name : String) (inQuotes : Bool)
  | length (name : String) (inQuotes : Bool)
  | changed (name : String) (change : Change) (orEmpty : Bool) (word : List Part) (inQuotes : Bool)
  | output (body : Command) (inQuotes : Bool)
  | arithmetic (word : List Part) (inQuotes : Bool)
  | unknown

inductive Redirect where
  | fromFile (channel : Nat) (target : List Part)
  | toFile (channel : Nat) (append : Bool) (target : List Part)
  | toChannel (channel : Nat) (target : List Part)
  | fromText (channel : Nat) (body : List Part)

inductive Command where
  | simple (line : Nat) (assignments : List (String × List Part)) (words : List (List Part))
      (redirects : List Redirect)
  | redirected (body : Command) (redirects : List Redirect)
  | subshell (body : Command)
  | background (body : Command)
  | choose (arms : List (Command × Command)) (otherwise : Option Command)
  | loop (isUntil : Bool) (condition body : Command)
  | each (name : String) (words : Option (List (List Part))) (body : Command)
  | select (word : List Part) (arms : List (List (List Part) × Command))
  | define (name : String) (body : Command)
  | pipe (commands : List Command)
  | negate (body : Command)
  | both (first second : Command)
  | either (first second : Command)
  | sequence (commands : List Command)

end

abbrev Word := List Part

instance : Inhabited Command := ⟨.sequence []⟩

/-! ## Names -/

def startsName (c : Char) : Bool := c.isAlpha || c == '_'

def continuesName (c : Char) : Bool := c.isAlphanum || c == '_'

def isName (s : String) : Bool :=
  match s.toList with
  | c :: cs => startsName c && cs.all continuesName
  | [] => false

def isSpecial (c : Char) : Bool := "@*#?-$!".toList.contains c || c.isDigit

def reserved : List String :=
  ["!", "case", "do", "done", "elif", "else", "esac", "fi", "for", "if", "in", "then", "until", "while", "\x7b", "\x7d"]

def bareText? (w : Word) : Option String :=
  match w with
  | [.plain cs] => some (String.ofList cs)
  | _ => none

def assignment? (w : Word) : Option (String × Word) :=
  match w with
  | .plain cs :: rest =>
    match cs.dropWhile (· != '=') with
    | '=' :: after =>
      let name := String.ofList (cs.takeWhile (· != '='))
      if isName name then some (name, if after.isEmpty then rest else .plain after :: rest) else none
    | _ => none
  | _ => none

end Supermartingale.Shell
