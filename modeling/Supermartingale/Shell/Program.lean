import Supermartingale.Shell.Condition

/-!
# Programs that scripts call

The small programs that work on texts: they read files or what is handed to them, and write. A
program is a function from its words, its input and the files to what it writes.
-/

namespace Supermartingale.Shell

structure Call where
  name : String
  words : List (List Char)
  input : List Char
  files : Files

structure Result where
  output : List Char := []
  errors : List Char := []
  status : Nat := 0
  files : Option Files := none

namespace Call

def fail (c : Call) (why : List Char) (status : Nat := 1) : Result :=
  { errors := (c.name ++ ": ").toList ++ why ++ ['\n'], status }

def text (c : Call) (w : List Char) : Except String (List Char) :=
  if w == ['-'] then .ok c.input
  else if w == "/dev/null".toList then .ok []
  else match c.files.entry? (Condition.path w) with
    | some (.file text _) => .ok (Text.octets text)
    | some .folder => .error "Is a directory"
    | none => .error "No such file or directory"

/-- Works on every text that is named, or on the input if none is. -/
def onTexts (c : Call) (names : List (List Char)) (work : List Char → List Char)
    (why : List Char → String → List Char) (status : Nat := 1) : Result :=
  let names := if names.isEmpty then [['-']] else names
  names.foldl (fun r w => match c.text w with
    | .ok text => { r with output := r.output ++ work text }
    | .error e => { r with errors := r.errors ++ (c.name ++ ": ").toList ++ why w e ++ ['\n'], status }) {}

end Call

def blame (w : List Char) (e : String) : List Char := w ++ (": " ++ e).toList

def blameQuoted (w : List Char) (e : String) : List Char :=
  "cannot open '".toList ++ w ++ ("' for reading: " ++ e).toList

/-! ## Lines -/

def linesOf (cs : List Char) : List (List Char) :=
  let parts := (Text.splitOn "\n" (String.ofList cs)).map String.toList
  if parts.getLast? == some [] then parts.dropLast else parts

def ofLines (ls : List (List Char)) : List Char := ls.flatMap (· ++ ['\n'])

def linesWithEnds (cs : List Char) : List (List Char) :=
  let ls := linesOf cs
  match ls.getLast? with
  | none => []
  | some last => ls.dropLast.map (· ++ ['\n']) ++ [if cs.getLast? == some '\n' then last ++ ['\n'] else last]

def options (valued : List Char) : Nat → List (List Char) →
    List (Char × List Char) × List (List Char)
  | 0, ws => ([], ws)
  | _ + 1, [] => ([], [])
  | fuel + 1, w :: ws =>
    match w with
    | ['-', '-'] => ([], ws)
    | '-' :: c :: rest =>
      if valued.contains c then
        if rest.isEmpty then
          let (os, left) := options valued fuel (ws.drop 1)
          ((c, ws.head?.getD []) :: os, left)
        else
          let (os, left) := options valued fuel ws
          ((c, rest) :: os, left)
      else
        let (os, left) := options valued fuel (if rest.isEmpty then ws else ('-' :: rest) :: ws)
        ((c, []) :: os, left)
    | w =>
      let (os, left) := options valued fuel ws
      (os, w :: left)

def Call.options (c : Call) (valued : String) : List (Char × List Char) × List (List Char) :=
  Shell.options valued.toList (2 * c.words.flatten.length + 2 * c.words.length + 1) c.words

def given (os : List (Char × List Char)) (c : Char) : Bool := os.any (·.1 == c)

/-! ## Cutting -/

def amount (os : List (Char × List Char)) : Bool × List Char :=
  os.foldl (fun a (k, v) =>
    if k == 'n' then (false, v) else if k == 'c' then (true, v)
    else if k.isDigit then (false, (if a.2.isEmpty || !a.1 then [] else a.2) ++ [k]) else a)
    (false, ['1', '0'])

def spellAmount (ws : List (List Char)) : List (List Char) :=
  match ws with
  | ('-' :: d :: rest) :: more => if d.isDigit then ['-', 'n'] :: (d :: rest) :: more else ws
  | ws => ws

/-- The lines or characters that are left when as many as an amount says are cut. -/
def excerpt (c : Call) (bound : List Char → Nat → Nat) (cut : {α : Type} → Nat → List α → List α) : Result :=
  let (os, names) := { c with words := spellAmount c.words }.options "nc"
  let (octets, n) := amount os
  c.onTexts names (fun text =>
    if octets then cut (bound n text.length) text
    else
      let ls := linesWithEnds text
      (cut (bound n ls.length) ls).flatten) blameQuoted

def head (c : Call) : Result :=
  excerpt c (fun n length => match n with
    | '-' :: rest => length - digitsValue rest
    | rest => digitsValue rest) List.take

def tail (c : Call) : Result :=
  excerpt c (fun n length => match n with
    | '+' :: rest => digitsValue rest - 1
    | '-' :: rest => length - digitsValue rest
    | rest => length - digitsValue rest) List.drop

def ranges (cs : List Char) : List (Nat × Option Nat) :=
  (Text.splitOn "," (String.ofList cs)).map (fun part =>
    let digits := part.toList.takeWhile Char.isDigit
    let low := if digits.isEmpty then 1 else digitsValue digits
    match part.toList.dropWhile Char.isDigit with
    | '-' :: [] => (low, none)
    | '-' :: high => (low, some (digitsValue high))
    | _ => (low, some low))

def inSomeRange (rs : List (Nat × Option Nat)) (n : Nat) : Bool :=
  rs.any (fun (low, high) => low ≤ n && high.all (n ≤ ·))

def pick {α : Type} (rs : List (Nat × Option Nat)) (xs : List α) : List α :=
  (xs.zipIdx.filter (fun (_, i) => inSomeRange rs (i + 1))).map (·.1)

def cut (c : Call) : Result :=
  let (os, names) := c.options "dfcb"
  let mark := ((os.lookup 'd').bind List.head?).getD '\t'
  c.onTexts names (fun text => ofLines ((linesOf text).filterMap (fun l =>
    match os.lookup 'f' with
    | none => some (pick (ranges (((os.lookup 'c').orElse (fun _ => os.lookup 'b')).getD [])) l)
    | some fields =>
      if !l.contains mark then (if given os 's' then none else some l)
      else
        let parts := (Text.splitOn (String.ofList [mark]) (String.ofList l)).map String.toList
        some (joined mark (pick (ranges fields) parts))))) blame
where
  joined (mark : Char) (words : List (List Char)) : List Char := (words.intersperse [mark]).flatten

/-! ## Characters -/

def classOf (name : String) : List Char :=
  let all := (List.range 128).map Char.ofNat
  match name with
  | "upper" => all.filter Char.isUpper
  | "lower" => all.filter Char.isLower
  | "alpha" => all.filter Char.isAlpha
  | "digit" => all.filter Char.isDigit
  | "alnum" => all.filter Char.isAlphanum
  | "space" => ['\t', '\n', '\x0b', '\x0c', '\r', ' ']
  | "blank" => ['\t', ' ']
  | "punct" => all.filter (fun c => 32 < c.toNat && c.toNat < 127 && !c.isAlphanum)
  | _ => []

def setChar (cs : List Char) : Char × List Char :=
  match cs with
  | '\\' :: d :: rest =>
    if '0' ≤ d && d ≤ '7' then
      let digits := ((d :: rest).take 3).takeWhile (fun c => '0' ≤ c && c ≤ '7')
      (Char.ofNat (digits.foldl (fun n c => 8 * n + (c.toNat - '0'.toNat)) 0 % 256), (d :: rest).drop digits.length)
    else
      let letters := [('n', '\n'), ('t', '\t'), ('r', '\r'), ('a', '\x07'), ('b', '\x08'), ('f', '\x0c'), ('v', '\x0b')]
      ((letters.lookup d).getD d, rest)
  | c :: rest => (c, rest)
  | [] => (' ', [])

def setOf : Nat → List Char → List Char
  | 0, _ => []
  | _ + 1, [] => []
  | fuel + 1, '[' :: ':' :: rest =>
    let name := rest.takeWhile (· != ':')
    classOf (String.ofList name) ++ setOf fuel (rest.drop (name.length + 2))
  | fuel + 1, cs =>
    let (a, rest) := setChar cs
    match rest with
    | '-' :: b :: more =>
      let (b, after) := setChar (b :: more)
      (List.range (b.toNat + 1 - a.toNat)).map (fun i => Char.ofNat (a.toNat + i)) ++ setOf fuel after
    | rest => a :: setOf fuel rest

def squeeze (p : Char → Bool) : List Char → List Char
  | a :: b :: rest => if a == b && p a then squeeze p (b :: rest) else a :: squeeze p (b :: rest)
  | cs => cs

def tr (c : Call) : Result :=
  let (os, sets) := c.options ""
  let set (w : List Char) : List Char := setOf (w.length + 1) w
  match sets with
  | [] => c.fail "missing operand\nTry 'tr --help' for more information.".toList
  | first :: more =>
    let complement := given os 'c' || given os 'C'
    let one := set first
    let member (x : Char) : Bool := one.contains x != complement
    let two := more.head?.map set
    if given os 'd' then
      let kept := c.input.filter (!member ·)
      { output := if given os 's' then squeeze (two.getD []).contains kept else kept }
    else match two with
      | none => { output := if given os 's' then squeeze member c.input else c.input }
      | some two =>
        let last := two.getLast?.getD ' '
        let map (x : Char) : Char :=
          if complement then (if member x then last else x)
          else match one.reverse.idxOf? x with
            | some i => two.getD (one.length - 1 - i) last
            | none => x
        let text := c.input.map map
        { output := if given os 's' then squeeze two.contains text else text }

/-! ## Order -/

def leadingNumber (l : List Char) : Rat :=
  let trimmed := l.dropWhile (fun c => c == ' ' || c == '\t')
  let (negative, rest) := match trimmed with
    | '-' :: rest => (true, rest)
    | rest => (false, rest)
  let whole := rest.takeWhile Char.isDigit
  let fraction := match rest.dropWhile Char.isDigit with
    | '.' :: after => after.takeWhile Char.isDigit
    | _ => []
  let value : Rat := (digitsValue whole : Rat) + (digitsValue fraction : Rat) / (Nat.pow 10 fraction.length : Rat)
  if negative then -value else value

def sort (c : Call) : Result :=
  let (os, names) := c.options "kto"
  let numeric := given os 'n'
  let reversed := given os 'r'
  let strictly (a b : List Char) : Bool :=
    if numeric && leadingNumber a != leadingNumber b then decide (leadingNumber a < leadingNumber b)
    else Condition.before a b
  let le (a b : List Char) : Bool := if reversed then !strictly a b else !strictly b a
  let r := c.onTexts names id (fun w e => "cannot read: ".toList ++ blame w e) 2
  let same (a b : List Char) : Bool := if numeric then leadingNumber a == leadingNumber b else a == b
  let sorted := (linesOf r.output).mergeSort le
  let kept := if given os 'u' then
      sorted.foldl (fun done l => match done with
        | last :: _ => if same last l then done else l :: done
        | [] => [l]) [] |>.reverse
    else sorted
  if r.status = 0 then { r with output := ofLines kept } else { r with output := [] }

def runs : List (List Char) → List (Nat × List Char)
  | [] => []
  | l :: ls => match runs ls with
    | (n, m) :: more => if l == m then (n + 1, m) :: more else (1, l) :: (n, m) :: more
    | [] => [(1, l)]

def column (width n : Nat) : List Char :=
  let digits := (toString n).toList
  List.replicate (width - digits.length) ' ' ++ digits

def uniq (c : Call) : Result :=
  let (os, names) := c.options ""
  c.onTexts names (fun text => ofLines (((runs (linesOf text)).filter (fun (n, _) =>
      (!given os 'd' || 1 < n) && (!given os 'u' || n = 1))).map (fun (n, l) =>
        if given os 'c' then column 7 n ++ [' '] ++ l else l))) blame

/-! ## Counting -/

def wordCount (cs : List Char) : Nat :=
  (cs.foldl (fun (n, inside) c =>
    if c.isWhitespace || c == '\x0b' || c == '\x0c' then (n, false)
    else if inside then (n, true) else (n + 1, true)) ((0 : Nat), false)).1

def wc (c : Call) : Result :=
  let (os, names) := c.options ""
  let shown : List Char := if os.isEmpty then ['l', 'w', 'c'] else
    ['l', 'w', 'm', 'c'].filter (given os)
  let values (text : List Char) : List Nat := shown.map (fun k =>
    if k == 'l' then text.count '\n' else if k == 'w' then wordCount text else text.length)
  let texts := names.map c.text
  let found := texts.filterMap Except.toOption
  let total := found.flatten.length
  let width := if names.isEmpty then (if shown.length = 1 then 1 else 7)
    else if shown.length = 1 && names.length = 1 then 1
    else (toString total).length
  let line (ns : List Nat) (name : List Char) : List Char :=
    ((ns.map (column width)).intersperse [' ']).flatten ++ (if name.isEmpty then [] else ' ' :: name) ++ ['\n']
  if names.isEmpty then { output := line (values c.input) [] }
  else
    let r := names.foldl (fun (r : Result) w => match c.text w with
      | .ok text => { r with output := r.output ++ line (values text) w }
      | .error e => { r with errors := r.errors ++ (c.name ++ ": ").toList ++ blame w e ++ ['\n'], status := 1 }) {}
    if names.length ≤ 1 then r
    else
      let sums := found.foldl (fun ns text => ns.zipWith (· + ·) (values text))
        (List.replicate shown.length 0)
      { r with output := r.output ++ line sums "total".toList }

def wholeNumber? (w : List Char) : Option Int :=
  match Condition.number w with
  | .ok n => some n
  | .error _ => none

def steps (first step last : Int) : List Int :=
  if step = 0 then []
  else (List.range (((last - first) / step).toNat + 1)).map (fun (i : Nat) => first + step * (i : Int)) |>.filter
    (fun n => if 0 < step then n ≤ last else last ≤ n)

def seq (c : Call) : Result :=
  let (os, ws) := match c.words with
    | ['-', 's'] :: s :: ws => ([('s', s)], ws)
    | ('-' :: 's' :: s) :: ws => ([('s', s)], ws)
    | ['-', 'w'] :: ws => ([('w', [])], ws)
    | ws => ([], ws)
  let numbers := ws.map wholeNumber?
  let shown := match numbers with
    | [some last] => some (steps 1 1 last)
    | [some first, some last] => some (steps first 1 last)
    | [some first, some step, some last] => some (steps first step last)
    | _ => none
  match shown with
  | none =>
    match ws.find? (fun w => (wholeNumber? w).isNone) with
    | some w => c.fail (Text.octets "invalid floating point argument: ‘" ++ w ++
        Text.octets "’\nTry 'seq --help' for more information.")
    | none => c.fail "missing operand\nTry 'seq --help' for more information.".toList
  | some [] => {}
  | some ns =>
    let texts := ns.map (fun n => (toString n).toList)
    let width := (texts.map List.length).foldl max 0
    let texts := if given os 'w' then
        texts.map (fun t => List.replicate (width - t.length) '0' ++ t)
      else texts
    { output := (texts.intersperse ((os.lookup 's').getD ['\n'])).flatten ++ ['\n'] }

/-! ## Names and files -/

def dropSlashes (w : List Char) : List Char :=
  match (w.reverse.dropWhile (· == '/')).reverse with
  | [] => w.take 1
  | w => w

def basename (c : Call) : Result :=
  match c.words with
  | [] => c.fail "missing operand\nTry 'basename --help' for more information.".toList
  | w :: more =>
    let w := dropSlashes w
    let name := if w == ['/'] then w else (w.reverse.takeWhile (· != '/')).reverse
    let ending := more.head?.getD []
    let bare := if ending.isSuffixOf name && ending != name then
        name.take (name.length - ending.length)
      else name
    { output := bare ++ ['\n'] }

def dirname (c : Call) : Result :=
  match c.words with
  | [] => c.fail "missing operand\nTry 'dirname --help' for more information.".toList
  | ws => { output := ofLines (ws.map (fun w =>
      let w := dropSlashes w
      if !w.contains '/' then ['.'] else
        dropSlashes (w.reverse.dropWhile (· != '/')).reverse)) }

def tee (c : Call) : Result :=
  let (os, names) := c.options ""
  let files := names.foldl (fun f w =>
    let p := Condition.path w
    let text := Text.ofOctetsOrSelf c.input
    match (if given os 'a' then f.append p text else f.write p text) with
    | .ok f => f
    | .error _ => f) c.files
  { output := c.input, files := some files }

def cat (c : Call) : Result :=
  let (os, names) := c.options ""
  let r := c.onTexts names id blame
  let r := if given os 'E' then
      { r with output := r.output.flatMap (fun x => if x == '\n' then ['$', '\n'] else [x]) }
    else r
  if given os 'n' then
    { r with output := ((linesWithEnds r.output).zipIdx.map (fun (l, i) => column 6 (i + 1) ++ ['\t'] ++ l)).flatten }
  else r

def rm (c : Call) : Result :=
  let (os, names) := c.options ""
  names.foldl (fun r w =>
    let files := r.files.getD c.files
    if files.isLink (Condition.path w) then { r with files := some (files.remove (Condition.path w)) }
    else match files.entry? (Condition.path w) with
    | some (.file _ _) => { r with files := some (files.remove (Condition.path w)) }
    | some .folder =>
      { r with errors := r.errors ++ "rm: cannot remove '".toList ++ w ++ "': Is a directory\n".toList
               status := 1 }
    | none =>
      if given os 'f' then r
      else { r with
        errors := r.errors ++ "rm: cannot remove '".toList ++ w ++ "': No such file or directory\n".toList
        status := 1 }) {}

/-- Makes a link. A second name for a file that is there is a link to its place. -/
def ln (c : Call) : Result :=
  let (os, names) := c.options "St"
  let symbolic := given os 's'
  let make (target name : List Char) : Result :=
    let name := if c.files.isFolder (Condition.path name) then
        dropSlashes name ++ ['/'] ++ ((dropSlashes target).reverse.takeWhile (· != '/')).reverse
      else name
    let p := Condition.path name
    let isThere := c.files.exists? p || c.files.isLink p
    let sort := if symbolic then "symbolic link" else "hard link"
    match c.files.entry? (Condition.path target), symbolic with
    | none, false => c.fail ("failed to access '".toList ++ target ++ "': No such file or directory".toList)
    | some .folder, false => c.fail (target ++ ": hard link not allowed for directory".toList)
    | _, _ =>
      if isThere && !given os 'f' then
        c.fail (("failed to create " ++ sort ++ " '").toList ++ name ++ "': File exists".toList)
      else if !c.files.isFolder (Path.folder (c.files.spot p)) then
        c.fail (("failed to create " ++ sort ++ " '").toList ++ name ++ "': No such file or directory".toList)
      else
        let place := if symbolic then Condition.path target else c.files.place (Condition.path target)
        { files := some ((c.files.remove p).link p place) }
  match names with
  | [] => c.fail "missing file operand\nTry 'ln --help' for more information.".toList
  | [target] => make target ['.']
  | [target, name] => make target name
  | _ => c.fail ("target '".toList ++ names.getLast?.getD [] ++ "': No such file or directory".toList)

def touch (c : Call) : Result :=
  let (_, names) := c.options ""
  { files := some (names.foldl (fun f w =>
      match f.append (Condition.path w) "" with
      | .ok f => f
      | .error _ => f) c.files) }

def ls (c : Call) : Result :=
  let (os, names) := c.options ""
  let listed (p : String) : List (List Char) :=
    ((c.files.list p).map Text.octets).filter (fun n => given os 'a' || n.head? != some '.')
      |>.mergeSort (fun a b => !Condition.before b a)
  if names.isEmpty then { output := ofLines (listed c.files.here) }
  else
    let paths := names.map (fun w => (w, Condition.path w))
    let isThere (p : String) : Bool := c.files.exists? p
    let missing := paths.filter (fun (_, p) => !isThere p)
    let single := paths.filter (fun (_, p) => isThere p && (given os 'd' || !c.files.isFolder p))
    let folders := paths.filter (fun (_, p) => c.files.isFolder p && !given os 'd')
    let blocks := (if single.isEmpty then [] else [ofLines (single.map Prod.fst)]) ++
      folders.map (fun (w, p) => (if names.length = 1 then [] else w ++ [':', '\n']) ++ ofLines (listed p))
    { output := (blocks.intersperse ['\n']).flatten
      errors := missing.flatMap (fun (w, _) => "ls: cannot access '".toList ++ w ++
        "': No such file or directory\n".toList)
      status := if missing.isEmpty then 0 else 2 }

def programs : List (String × (Call → Result)) := [
  ("basename", basename),
  ("cat", cat),
  ("cut", cut),
  ("dirname", dirname),
  ("head", head),
  ("ln", ln),
  ("ls", ls),
  ("rev", fun c => c.onTexts c.words (fun text => (linesWithEnds text).flatMap (fun l =>
    if l.getLast? == some '\n' then l.dropLast.reverse ++ ['\n'] else l.reverse)) blame),
  ("rm", rm),
  ("seq", seq),
  ("sleep", fun _ => {}),
  ("sort", sort),
  ("tac", fun c => c.onTexts c.words (fun text => (linesWithEnds text).reverse.flatten) blame),
  ("tail", tail),
  ("tee", tee),
  ("touch", touch),
  ("tr", tr),
  ("uniq", uniq),
  ("wc", wc)]

end Supermartingale.Shell
