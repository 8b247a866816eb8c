import Supermartingale.Shell.Program

/-!
# Programs that search and edit lines

One program shows the lines that fit a pattern, one edits lines by a small script of its own, and one
computes an expression that is given word by word.
-/

namespace Supermartingale.Shell

/-! ## Regular expressions

The expressions by which programs search texts, in their two spellings: in the basic one brackets,
braces and bars are written with a backslash, in the extended one without. Of all matches the one
that starts first counts, and of those the longest. -/

inductive Regular where
  | empty
  | one (negated : Bool) (cs : List Char)
  | any
  | start
  | finish
  | sequence (a b : Regular)
  | either (a b : Regular)
  | group (n : Nat) (a : Regular)
  | repeated (a : Regular) (least : Nat) (most : Option Nat)
  | again (n : Nat)
deriving Repr

namespace Regular

/-! ## Matching -/

structure Found where
  atStart : Bool
  rest : List Char
  groups : List (Nat × List Char) := []

def fold (ignoreCase : Bool) (c : Char) : Char := if ignoreCase then c.toLower else c

def take (p : Char → Bool) (f : Found) : List Found :=
  match f.rest with
  | c :: rest => if p c then [{ f with atStart := false, rest }] else []
  | [] => []

def ways (ignoreCase : Bool) : Nat → Regular → Found → List Found
  | 0, _, _ => []
  | fuel + 1, r, f =>
    match r with
    | .empty => [f]
    | .one negated cs => take (fun c => (cs.any (fun d => fold ignoreCase d == fold ignoreCase c)) != negated) f
    | .any => take (fun _ => true) f
    | .start => if f.atStart then [f] else []
    | .finish => if f.rest.isEmpty then [f] else []
    | .sequence a b => (ways ignoreCase fuel a f).flatMap (ways ignoreCase fuel b)
    | .either a b => ways ignoreCase fuel a f ++ ways ignoreCase fuel b f
    | .group n a => (ways ignoreCase fuel a f).map (fun g =>
        { g with groups := (n, f.rest.take (f.rest.length - g.rest.length)) :: g.groups.filter (·.1 != n) })
    | .repeated a least most =>
      let more := if most == some 0 then [] else
        (ways ignoreCase fuel a f).filter (fun g => g.rest.length < f.rest.length || 0 < least)
          |>.flatMap (ways ignoreCase fuel (.repeated a (least - 1) (most.map (· - 1))))
      if least = 0 then more ++ [f] else more
    | .again n =>
      let cs := (f.groups.lookup n).getD []
      if cs.isPrefixOf f.rest then [{ f with rest := f.rest.drop cs.length }] else []

def longest? (ignoreCase : Bool) (r : Regular) (f : Found) : Option Found :=
  (ways ignoreCase (2 * f.rest.length + 1000) r f).foldl (fun best g => match best with
    | some b => if g.rest.length < b.rest.length then some g else best
    | none => some g) none

def first? (ignoreCase : Bool) (r : Regular) : List Char → Bool → List Char →
    Option (List Char × List Char × Found)
  | front, atStart, cs =>
    match longest? ignoreCase r ⟨atStart, cs, []⟩ with
    | some f => some (front.reverse, cs.take (cs.length - f.rest.length), f)
    | none => match cs with
      | [] => none
      | c :: rest => first? ignoreCase r (c :: front) false rest

def occurs (ignoreCase : Bool) (r : Regular) (cs : List Char) : Bool := (first? ignoreCase r [] true cs).isSome

/-! ## Reading -/

def bracket : Nat → List Char → List Char → Option (List Char × List Char)
  | 0, _, _ => none
  | _ + 1, _, [] => none
  | fuel + 1, done, '[' :: ':' :: rest =>
    let name := rest.takeWhile (· != ':')
    bracket fuel (done ++ classOf (String.ofList name)) (rest.drop (name.length + 2))
  | fuel + 1, done, c :: rest =>
    if c == ']' && !done.isEmpty then some (done, rest)
    else match rest with
      | '-' :: d :: more =>
        if d == ']' then bracket fuel (done ++ [c]) rest
        else bracket fuel (done ++ (List.range (d.toNat + 1 - c.toNat)).map
          (fun i => Char.ofNat (c.toNat + i))) more
      | rest => bracket fuel (done ++ [c]) rest

def bounds (extended : Bool) (cs : List Char) : Option (Nat × Option Nat × List Char) :=
  let low := cs.takeWhile Char.isDigit
  let close (least : Nat) (most : Option Nat) (rest : List Char) :
      Option (Nat × Option Nat × List Char) :=
    match extended, rest with
    | true, '\x7d' :: rest => some (least, most, rest)
    | false, '\\' :: '\x7d' :: rest => some (least, most, rest)
    | _, _ => none
  match cs.drop low.length with
  | ',' :: rest =>
    let high := rest.takeWhile Char.isDigit
    close (digitsValue low) (if high.isEmpty then none else some (digitsValue high))
      (rest.drop high.length)
  | rest => close (digitsValue low) (some (digitsValue low)) rest

def sign? (extended : Bool) (cs : List Char) : Option (Char × List Char) :=
  let signs := ['(', ')', '\x7b', '|', '+', '?']
  match extended, cs with
  | true, c :: rest => if signs.contains c then some (c, rest) else none
  | false, '\\' :: c :: rest => if signs.contains c then some (c, rest) else none
  | _, _ => none

mutual

def readEither (extended : Bool) : Nat → Nat → List Char → Option (Regular × Nat × List Char)
  | 0, _, _ => none
  | fuel + 1, n, cs => do
    let (a, n, rest) ← readSequence extended fuel n .empty true cs
    match sign? extended rest with
    | some ('|', rest) =>
      let (b, n, rest) ← readEither extended fuel n rest
      return (.either a b, n, rest)
    | _ => return (a, n, rest)

def readSequence (extended : Bool) : Nat → Nat → Regular → Bool → List Char →
    Option (Regular × Nat × List Char)
  | 0, _, _, _, _ => none
  | fuel + 1, n, done, isFirst, cs =>
    let atom (a : Regular) (n : Nat) (rest : List Char) : Option (Regular × Nat × List Char) :=
      let (a, rest) := repetitions extended rest.length a rest
      readSequence extended fuel n (.sequence done a) false rest
    let endsHere (rest : List Char) : Bool :=
      rest.isEmpty || (match sign? extended rest with
        | some (c, _) => c == ')' || c == '|'
        | none => false)
    match cs with
    | [] => some (done, n, [])
    | c :: rest =>
      match sign? extended cs with
      | some ('(', rest) => do
        let (a, m, rest) ← readEither extended fuel (n + 1) rest
        match sign? extended rest with
        | some (')', rest) => atom (.group (n + 1) a) m rest
        | _ => none
      | some (')', _) => some (done, n, cs)
      | some ('|', _) => some (done, n, cs)
      | some (sign, rest) => atom (.one false [sign]) n rest
      | none =>
        if c == '^' && (isFirst || extended) then
          readSequence extended fuel n (.sequence done .start) true rest
        else if c == '$' && (extended || endsHere rest) then
          readSequence extended fuel n (.sequence done .finish) false rest
        else if c == '.' then atom .any n rest
        else if c == '[' then do
          let (negated, rest) := match rest with
            | '^' :: rest => (true, rest)
            | rest => (false, rest)
          let (set, rest) ← bracket (rest.length + 1) [] rest
          atom (.one negated set) n rest
        else if c == '\\' then
          match rest with
          | d :: rest =>
            if d.isDigit && d != '0' then atom (.again (d.toNat - '0'.toNat)) n rest
            else if d == 'n' then atom (.one false ['\n']) n rest
            else if d == 't' then atom (.one false ['\t']) n rest
            else if d == 's' then atom (.one false (classOf "space")) n rest
            else if d == 'w' then atom (.one false ('_' :: classOf "alnum")) n rest
            else if d == 'W' then atom (.one true ('_' :: classOf "alnum")) n rest
            else atom (.one false [d]) n rest
          | [] => none
        else atom (.one false [c]) n rest

def repetitions (extended : Bool) : Nat → Regular → List Char → Regular × List Char
  | 0, a, cs => (a, cs)
  | fuel + 1, a, cs =>
    match cs with
    | '*' :: rest => repetitions extended fuel (.repeated a 0 none) rest
    | cs =>
      match sign? extended cs with
      | some ('+', rest) => repetitions extended fuel (.repeated a 1 none) rest
      | some ('?', rest) => repetitions extended fuel (.repeated a 0 (some 1)) rest
      | some ('\x7b', rest) =>
        match bounds extended rest with
        | some (least, most, rest) => repetitions extended fuel (.repeated a least most) rest
        | none => (a, cs)
      | _ => (a, cs)

end

def read? (extended : Bool) (cs : List Char) : Option Regular :=
  match readEither extended (2 * cs.length + 4) 0 cs with
  | some (r, _, []) => some r
  | _ => none

def ofText (cs : List Char) : Regular := cs.foldr (fun c r => .sequence (.one false [c]) r) .empty

end Regular

def grep (c : Call) : Result :=
  let (os, words) := c.options "emABC"
  let extended := given os 'E'
  let (patterns, names) := match os.filter (·.1 == 'e') with
    | [] => (words.take 1, words.drop 1)
    | es => (es.map Prod.snd, words)
  if patterns.isEmpty then
    { errors := "Usage: grep [OPTION]... PATTERNS [FILE]...\nTry 'grep --help' for more information.\n".toList
      status := 2 }
  else
    let regulars := (patterns.flatMap linesOrOne).map (fun p =>
      if given os 'F' then some (Regular.ofText p) else Regular.read? extended p)
    if regulars.any Option.isNone then c.fail "Unmatched [, [^, [:, [., or [=".toList 2
    else
      let ignoreCase := given os 'i' || given os 'y'
      let regulars : List Regular := (regulars.filterMap id).map (fun (r : Regular) =>
        if given os 'x' then .sequence .start (.sequence r .finish) else r)
      let fits (l : List Char) : Bool := regulars.any (Regular.occurs ignoreCase · l) != given os 'v'
      let names' := if names.isEmpty then [['-']] else names
      let labelled := 1 < names'.length && !given os 'h'
      let step (r : Result × Bool) (w : List Char) : Result × Bool :=
        match c.text w with
        | .error e =>
          ({ r.1 with
              errors := r.1.errors ++ (if given os 's' then [] else
                (c.name ++ ": ").toList ++ blame w e ++ ['\n'])
              status := 2 }, r.2)
        | .ok text =>
          let ls := (linesOf text).zipIdx.filter (fun (l, _) => fits l)
          let label := if labelled then w ++ [':'] else []
          let shown := if given os 'q' then []
            else if given os 'l' then (if ls.isEmpty then [] else w ++ ['\n'])
            else if given os 'c' then label ++ (toString ls.length).toList ++ ['\n']
            else ls.flatMap (fun (l, i) =>
              let front := label ++ (if given os 'n' then (toString (i + 1)).toList ++ [':'] else [])
              if given os 'o' then
                (parts ignoreCase regulars (l.length + 1) true l).flatMap
                  (fun p => front ++ p ++ ['\n'])
              else front ++ l ++ ['\n'])
          ({ r.1 with output := r.1.output ++ shown }, r.2 || !ls.isEmpty)
      let (r, any) := names'.foldl step ({}, false)
      { r with status := if r.status = 2 && !(any && given os 'q') then 2 else if any then 0 else 1 }
where
  linesOrOne (p : List Char) : List (List Char) := (Text.splitOn "\n" (String.ofList p)).map String.toList
  parts (ignoreCase : Bool) (rs : List Regular) : Nat → Bool → List Char → List (List Char)
    | 0, _, _ => []
    | fuel + 1, atStart, cs =>
      let found := rs.filterMap (fun r => Regular.first? ignoreCase r [] atStart cs)
      let best := found.foldl (fun b f => match b with
        | some (g : List Char × List Char × Regular.Found) =>
          if f.1.length < g.1.length || (f.1.length = g.1.length && g.2.1.length < f.2.1.length)
          then some f else b
        | none => some f) none
      match best with
      | none => []
      | some (_, m, f) =>
        if m.isEmpty then
          match f.rest with
          | _ :: rest => parts ignoreCase rs fuel false rest
          | [] => []
        else m :: parts ignoreCase rs fuel false f.rest

/-! ## Editing -/

inductive Address where
  | line (n : Nat)
  | last
  | fitting (r : Regular)

inductive Edit where
  | substitute (r : Regular) (value : List Char) (all : Bool) (nth : Nat) (prints : Bool)
      (ignoreCase : Bool)
  | print
  | delete
  | quit
  | number
  | exchange (a b : List Char)
  | append (text : List Char)
  | insert (text : List Char)
  | change (text : List Char)

/-- A command of the editor: from which line to which one, possibly the others, and what. -/
structure Instruction where
  first : Option Address := none
  second : Option Address := none
  others : Bool := false
  edit : Edit

namespace Edit

/-- A part of an editor's script up to a mark, and the rest behind it. A backslash keeps the mark. -/
def upTo (mark : Char) : List Char → List Char → Option (List Char × List Char)
  | _, [] => none
  | done, '\\' :: c :: rest =>
    if c == mark then upTo mark (c :: done) rest else upTo mark (c :: '\\' :: done) rest
  | done, c :: rest => if c == mark then some (done.reverse, rest) else upTo mark (c :: done) rest

def address? (extended : Bool) (cs : List Char) : Option (Option Address × List Char) :=
  match cs with
  | '$' :: rest => some (some .last, rest)
  | '/' :: rest => do
    let (pattern, rest) ← upTo '/' [] rest
    return (some (.fitting (← Regular.read? extended pattern)), rest)
  | c :: _ =>
    if c.isDigit then
      some (some (.line (digitsValue (cs.takeWhile Char.isDigit))), cs.dropWhile Char.isDigit)
    else some (none, cs)
  | [] => some (none, [])

def isGap (c : Char) : Bool := c == ' ' || c == '\t' || c == '\n' || c == ';'

def read? (extended : Bool) (cs : List Char) : Option (Edit × List Char) :=
  match cs with
  | 's' :: mark :: rest => do
    let (pattern, rest) ← upTo mark [] rest
    let (value, rest) ← upTo mark [] rest
    let marks := rest.takeWhile (fun c => c.isDigit || "gpiI".toList.contains c)
    let nth := digitsValue (marks.filter Char.isDigit)
    return (.substitute (← Regular.read? extended pattern) value (marks.contains 'g') (max nth 1)
      (marks.contains 'p') (marks.contains 'i' || marks.contains 'I'), rest.drop marks.length)
  | 'y' :: mark :: rest => do
    let (a, rest) ← upTo mark [] rest
    let (b, rest) ← upTo mark [] rest
    return (.exchange a b, rest)
  | 'p' :: rest => some (.print, rest)
  | 'd' :: rest => some (.delete, rest)
  | 'q' :: rest => some (.quit, rest)
  | '=' :: rest => some (.number, rest)
  | c :: rest =>
    let rest := rest.dropWhile (fun c => c == ' ')
    let rest := match rest with
      | '\\' :: '\n' :: rest => rest
      | '\\' :: rest => rest
      | rest => rest
    let text := rest.takeWhile (· != '\n')
    let after := rest.drop text.length
    if c == 'a' then some (.append text, after)
    else if c == 'i' then some (.insert text, after)
    else if c == 'c' then some (.change text, after)
    else none
  | [] => none

def script? (extended : Bool) : Nat → List Char → Option (List Instruction)
  | 0, _ => none
  | fuel + 1, cs =>
    match cs.dropWhile isGap with
    | [] => some []
    | cs => do
      let (first, rest) ← address? extended cs
      let (second, rest) ← match first, rest with
        | some _, ',' :: rest => address? extended rest
        | _, rest => some (none, rest)
      let rest := rest.dropWhile (· == ' ')
      let (others, rest) := match rest with
        | '!' :: rest => (true, rest.dropWhile (· == ' '))
        | rest => (false, rest)
      let (edit, rest) ← read? extended rest
      let more ← script? extended fuel rest
      return { first, second, others, edit } :: more

def replacement (m : List Char) (groups : List (Nat × List Char)) : List Char → List Char
  | [] => []
  | '\\' :: c :: rest =>
    (if c.isDigit then
      (if c == '0' then m else (groups.lookup (c.toNat - '0'.toNat)).getD [])
    else if c == 'n' then ['\n'] else if c == 't' then ['\t'] else [c]) ++ replacement m groups rest
  | '&' :: rest => m ++ replacement m groups rest
  | c :: rest => c :: replacement m groups rest

def substituted (r : Regular) (value : List Char) (all ignoreCase : Bool) : Nat → Nat → Bool →
    List Char → List Char × Bool
  | 0, _, _, cs => (cs, false)
  | fuel + 1, nth, atStart, cs =>
    match Regular.first? ignoreCase r [] atStart cs with
    | none => (cs, false)
    | some (front, m, f) =>
      let step (rest : List Char) (nth : Nat) : List Char × Bool :=
        if m.isEmpty then
          match rest with
          | c :: rest =>
            let (after, found) := substituted r value all ignoreCase fuel nth false rest
            (c :: after, found)
          | [] => ([], false)
        else substituted r value all ignoreCase fuel nth false rest
      if 1 < nth then
        let (after, found) := step f.rest (nth - 1)
        (front ++ m ++ after, found)
      else
        let put := replacement m f.groups value
        if all then
          let (after, _) := step f.rest 1
          (front ++ put ++ after, true)
        else (front ++ put ++ f.rest, true)

end Edit

structure Editor where
  output : List Char := []
  opened : List Nat := []
  quits : Bool := false

def Address.isAt (n : Nat) (isLast : Bool) (l : List Char) : Address → Bool
  | line k => k = n
  | last => isLast
  | fitting r => Regular.occurs false r l

def Instruction.selects (i : Instruction) (isOpen : Bool) (n : Nat) (isLast : Bool) (l : List Char) :
    Bool × Bool :=
  let (hit, stays) := match i.first, i.second with
    | none, _ => (true, false)
    | some a, none => (a.isAt n isLast l, false)
    | some a, some b =>
      if isOpen then
        (match b with
          | .line k => (true, n < k)
          | b => (true, !b.isAt n isLast l))
      else if a.isAt n isLast l then
        (true, match b with
          | .line k => n < k
          | .last => !isLast
          | .fitting _ => true)
      else (false, false)
  (hit != i.others, stays)

def editLine (n : Nat) (isLast : Bool) : List (Instruction × Nat) → List Char → List Char → Editor →
    Option (List Char) × List Char × Editor
  | [], l, later, e => (some l, later, e)
  | (i, k) :: rest, l, later, e =>
    let (hit, stays) := i.selects (e.opened.contains k) n isLast l
    let opened := if stays then k :: e.opened.filter (· != k) else e.opened.filter (· != k)
    let e := { e with opened }
    if !hit then editLine n isLast rest l later e
    else match i.edit with
      | .substitute r value all nth prints ignoreCase =>
        let (m, found) := Edit.substituted r value all ignoreCase (l.length + 2) nth true l
        let e := if found && prints then { e with output := e.output ++ m ++ ['\n'] } else e
        editLine n isLast rest (if found then m else l) later e
      | .print => editLine n isLast rest l later { e with output := e.output ++ l ++ ['\n'] }
      | .delete => (none, later, e)
      | .quit => (some l, later, { e with quits := true })
      | .number =>
        editLine n isLast rest l later
          { e with output := e.output ++ (toString n).toList ++ ['\n'] }
      | .exchange a b => editLine n isLast rest (l.map (fun c => ((a.zip b).lookup c).getD c)) later e
      | .append text => editLine n isLast rest l (later ++ text ++ ['\n']) e
      | .insert text => editLine n isLast rest l later { e with output := e.output ++ text ++ ['\n'] }
      | .change text => (none, later, { e with output := e.output ++ text ++ ['\n'] })

def editLines (instructions : List (Instruction × Nat)) (quiet : Bool) (total : Nat) (ended : Bool) :
    Nat → List (List Char) → Editor → Editor
  | _, [], e => e
  | n, l :: rest, e =>
    if e.quits then e
    else
      let (shown, later, e) := editLine n (n = total) instructions l [] e
      let finish := if n = total && !ended && later.isEmpty then [] else ['\n']
      let line := match shown with
        | some l => if quiet then [] else l ++ finish
        | none => []
      editLines instructions quiet total ended (n + 1) rest
        { e with output := e.output ++ line ++ later }

def sed (c : Call) : Result :=
  let (os, words) := c.options "e"
  let extended := given os 'E' || given os 'r'
  let (script, names) := match os.filter (·.1 == 'e') with
    | [] => ((words.head?).getD [], words.drop 1)
    | es => (((es.map Prod.snd).intersperse ['\n']).flatten, words)
  match Edit.script? extended (script.length + 1) script with
  | none => c.fail ("-e expression #1, char 1: unknown command: \x60".toList ++ script.take 1 ++ ['\'']) 1
  | some instructions =>
    let r := c.onTexts names id (fun w e => "can't read ".toList ++ blame w e) 2
    let lines := linesOf r.output
    let e := editLines instructions.zipIdx (given os 'n') lines.length
      (r.output.getLast? == some '\n') 1 lines {}
    { r with output := e.output }

/-! ## Computing -/

namespace Calculation

def number? (w : List Char) : Option Int :=
  let digits := match w with
    | '-' :: rest => rest
    | w => w
  if digits.isEmpty || !digits.all Char.isDigit then none
  else some (if w.head? == some '-' then -(digitsValue digits : Int) else digitsValue digits)

def ofBool (b : Bool) : List Char := if b then ['1'] else ['0']

def isNull (w : List Char) : Bool := w.isEmpty || number? w == some 0

def levels : List (List String) :=
  [["|"], ["&"], ["<", "<=", "=", "==", "!=", ">=", ">"], ["+", "-"], ["*", "/", "%"], [":"]]

def matchValue (a b : List Char) : List Char :=
  match Regular.read? false b with
  | none => []
  | some r =>
    let grouped := Text.contains "\\(" (String.ofList b)
    match Regular.longest? false r ⟨true, a, []⟩ with
    | some f => if grouped then (f.groups.lookup 1).getD []
        else (toString (a.length - f.rest.length)).toList
    | none => if grouped then [] else ['0']

def apply (op : String) (a b : List Char) : Except String (List Char) :=
  let numeric (f : Int → Int → Except String Int) : Except String (List Char) :=
    match number? a, number? b with
    | some x, some y => do return (toString (← f x y)).toList
    | _, _ => .error "non-integer argument"
  let compared (onNumbers : Int → Int → Bool) (onTexts : Bool) : Except String (List Char) :=
    match number? a, number? b with
    | some x, some y => .ok (ofBool (onNumbers x y))
    | _, _ => .ok (ofBool onTexts)
  match op with
  | "|" => .ok (if !isNull a then a else if isNull b then ['0'] else b)
  | "&" => .ok (if isNull a || isNull b then ['0'] else a)
  | "<" => compared (· < ·) (Condition.before a b)
  | "<=" => compared (· ≤ ·) (!Condition.before b a)
  | "=" => compared (· == ·) (a == b)
  | "==" => compared (· == ·) (a == b)
  | "!=" => compared (· != ·) (a != b)
  | ">=" => compared (fun x y => y ≤ x) (!Condition.before a b)
  | ">" => compared (fun x y => y < x) (Condition.before b a)
  | "+" => numeric (fun x y => .ok (x + y))
  | "-" => numeric (fun x y => .ok (x - y))
  | "*" => numeric (fun x y => .ok (x * y))
  | "/" => numeric (fun x y => if y = 0 then .error "division by zero" else .ok (Int.tdiv x y))
  | "%" => numeric (fun x y => if y = 0 then .error "division by zero" else .ok (Int.tmod x y))
  | _ => .ok (matchValue a b)

mutual

def level : Nat → List (List String) → List (List Char) →
    Except String (List Char × List (List Char))
  | 0, _, _ => .error "syntax error"
  | fuel + 1, [], ws => operand fuel ws
  | fuel + 1, ops :: stronger, ws => do
    let (a, rest) ← level fuel stronger ws
    levelRest fuel ops stronger a rest

def levelRest : Nat → List String → List (List String) → List Char → List (List Char) →
    Except String (List Char × List (List Char))
  | 0, _, _, _, _ => .error "syntax error"
  | fuel + 1, ops, stronger, a, ws =>
    match ws with
    | op :: rest =>
      if ops.contains (String.ofList op) then do
        if rest.isEmpty then throw ("syntax error: missing argument after ‘" ++ String.ofList op ++ "’")
        let (b, rest) ← level fuel stronger rest
        levelRest fuel ops stronger (← apply (String.ofList op) a b) rest
      else .ok (a, ws)
    | [] => .ok (a, [])

def operand : Nat → List (List Char) → Except String (List Char × List (List Char))
  | 0, _ => .error "syntax error"
  | fuel + 1, ws =>
    match ws with
    | ['('] :: rest => do
      let (a, rest) ← level fuel levels rest
      match rest with
      | [')'] :: rest => return (a, rest)
      | _ => throw "syntax error: expecting ')'"
    | w :: a :: rest =>
      if w == "length".toList then .ok ((toString a.length).toList, rest) else .ok (w, a :: rest)
    | [w] => .ok (w, [])
    | [] => .error "missing operand\nTry 'expr --help' for more information."

end

end Calculation

/-- Computes an expression; the status tells whether its value counts as nothing. -/
def expr (c : Call) : Result :=
  match Calculation.level (20 * c.words.length + 20) Calculation.levels c.words with
  | .ok (a, []) => { output := a ++ ['\n'], status := if Calculation.isNull a then 1 else 0 }
  | .ok (_, w :: _) => c.fail (Text.octets "syntax error: unexpected argument ‘" ++ w ++ Text.octets "’") 2
  | .error why => c.fail (Text.octets why) 2

def allPrograms : List (String × (Call → Result)) :=
  programs ++ [("grep", grep), ("egrep", fun c => grep { c with words := ['-', 'E'] :: c.words }),
    ("fgrep", fun c => grep { c with words := ['-', 'F'] :: c.words }), ("sed", sed), ("expr", expr)]

end Supermartingale.Shell
