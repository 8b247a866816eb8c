import Supermartingale.Shell.Builtin

/-!
# Running scripts: commands

Words become fields by putting in what they refer to; a command gets its fields and channels and
runs. Every step has a bound on how deep it may go on.
-/

namespace Supermartingale.Shell

open Run

inductive Callee where
  | function (body : Command)
  | builtin
  | program (run : Call → Result)
  | shell
  | script (text : List Char)
  | forbidden
  | absent

def programFolders : List String := ["/usr/bin/", "/bin/"]

def programName (name : String) : String :=
  match programFolders.find? (fun f => f.toList.isPrefixOf name.toList) with
  | some f => String.ofList (name.toList.drop f.length)
  | none => name

def callee (s : State) (name : String) (withFunctions : Bool) : Callee :=
  match (if withFunctions then s.functions.lookup name else none) with
  | some body => .function body
  | none =>
    if Builtin.isBuiltin name then .builtin
    else if programName name == "sh" || programName name == "dash" then .shell
    else match allPrograms.lookup (programName name) with
      | some run => .program run
      | none =>
        if !name.toList.contains '/' then .absent
        else match s.files.entry? (Text.ofOctetsOrSelf name.toList) with
          | some (.file text runnable) => if runnable then .script (Text.octets text) else .forbidden
          | some .folder => .forbidden
          | none => .absent

def State.inherited (s : State) : Bindings := s.bindings.filter (fun (k, _) => s.exported.contains k)

def globbed (s : State) (g : Glyphs) : List (List Char) :=
  if !Glyphs.isPattern g || s.options.contains 'f' then [Glyphs.text g]
  else
    let found := (s.files.glob (Text.ofOctetsOrSelf (Glyphs.pattern g))).map Text.octets
    if found.isEmpty then [Glyphs.text g]
    else found.mergeSort (fun a b => !Condition.before b a)

def absentMessage (name : String) (orEmpty : Bool) (word : List Char) : List Char :=
  (name ++ ": ").toList ++
    (if !word.isEmpty then word
     else if orEmpty then "parameter not set or null".toList
     else "parameter not set".toList)

def checkFailure (tested : Bool) : Run Unit := do
  let s ← get
  if s.status != 0 && s.options.contains 'e' && !tested then throw .exit

def afterBody (r : Except Halt Unit) : Run Bool := do
  match r with
  | .ok _ => return true
  | .error (.leave n) => if n ≤ 1 then return false else throw (.leave (n - 1))
  | .error (.again n) => if n ≤ 1 then return true else throw (.again (n - 1))
  | .error h => throw h

mutual

/-- Adds what a word stands for to fields. -/
def expandInto : Nat → Bool → Bool → Word → Fields → Run Fields
  | 0, _, _, _, f => return f
  | fuel + 1, cuts, inside, word, f => word.foldlM (fun f part => expandPart fuel cuts inside part f) f

def expandPart : Nat → Bool → Bool → Part → Fields → Run Fields
  | 0, _, _, _, f => return f
  | fuel + 1, cuts, inside, part, f => do
    let put (inQuotes : Bool) (cs : List Char) : Run Fields := do
      if cuts && !inQuotes then return f.addCut (← separators) cs
      else return f.add inQuotes cs
    match part with
    | .plain cs => if inside then put false cs else return f.add false cs
    | .kept cs => return f.add true cs
    | .unknown => fail "Bad substitution".toList
    | .parameter name inQuotes => expandParameter fuel cuts name inQuotes f
    | .length name inQuotes =>
      let v ← if name == "@" || name == "*" then do
          pure (some (joinWords (← separator) (← get).arguments))
        else value name
      put inQuotes (toString (v.getD []).length).toList
    | .changed name change orEmpty word inQuotes =>
      let v ← if name == "@" || name == "*" then do
          let args := (← get).arguments
          pure (if args.isEmpty then none else some (joinWords [' '] args))
        else value name
      let isAbsent := v.isNone || (orEmpty && v == some [])
      let plainWord : Run (List Char) := do
        return ((← expandInto fuel false false word {}).toList.map Glyphs.text).flatten
      match change with
      | .otherwise =>
        if isAbsent then expandInto fuel cuts true word f else expandParameter fuel cuts name inQuotes f
      | .instead =>
        if isAbsent then return (if inQuotes then f.add true [] else f)
        else expandInto fuel cuts true word f
      | .assign =>
        if isAbsent then
          let w ← plainWord
          if !isName name then fail ((name ++ ": bad variable name").toList)
          assign name w
          put inQuotes w
        else put inQuotes (v.getD [])
      | .demand =>
        if isAbsent then fail (absentMessage name orEmpty (← plainWord)) else put inQuotes (v.getD [])
      | .dropEnd longest =>
        let g := ((← expandInto fuel false false word {}).toList).flatten
        put inQuotes (cutEnd longest g (v.getD []))
      | .dropStart longest =>
        let g := ((← expandInto fuel false false word {}).toList).flatten
        put inQuotes (cutStart longest g (v.getD []))
    | .output body inQuotes =>
      let i ← newBuffer
      withChannels do
        point 1 (.buffer i)
        runApart fuel false body
      let s ← get
      set { s with innerStatus := some s.status }
      let text := (s.buffers[i]?).getD []
      put inQuotes ((text.filter (· != '\x00')).reverse.dropWhile (· == '\n')).reverse
    | .arithmetic word inQuotes =>
      let text := ((← expandInto fuel false false word {}).toList.map Glyphs.text).flatten
      match Arithmetic.evaluate text (← get).bindings with
      | .ok (n, bindings) =>
        modify (fun s => { s with bindings })
        put inQuotes (Arithmetic.toText n)
      | .error fault => fail (fault.message text)

/-- Adds the value of a parameter. All words together are fields of their own. -/
def expandParameter : Nat → Bool → String → Bool → Fields → Run Fields
  | 0, _, _, _, f => return f
  | _ + 1, cuts, name, inQuotes, f => do
    let s ← get
    if name == "@" || name == "*" then
      let between ← if name == "@" then pure [' '] else separator
      if !cuts then return f.add inQuotes (joinWords between s.arguments)
      else if inQuotes && name == "*" then return f.add true (joinWords between s.arguments)
      else
        let cutters ← separators
        let step (f : Fields) (w : List Char) : Fields :=
          if inQuotes then f.add true w else f.addCut cutters w
        match s.arguments with
        | [] => return f
        | w :: ws => return ws.foldl (fun f w => step f.close w) (step f w)
    else
      match ← value name with
      | some v =>
        if cuts && !inQuotes then return f.addCut (← separators) v else return f.add inQuotes v
      | none =>
        if s.options.contains 'u' then fail (absentMessage name false [])
        if cuts && !inQuotes then return f else return f.add inQuotes []

def expandWords : Nat → List Word → Run (List (List Char))
  | 0, _ => return []
  | fuel + 1, words => do
    let fields ← words.mapM (fun w => do return (← expandInto fuel true false w {}).toList)
    let s ← get
    return fields.flatten.flatMap (globbed s)

def expandText : Nat → Word → Run (List Char)
  | 0, _ => return []
  | fuel + 1, word => do
    return ((← expandInto fuel false false word {}).toList.map Glyphs.text).flatten

def redirect : Nat → Redirect → Run (Option (List Char))
  | 0, _ => return none
  | fuel + 1, r => do
    let device (path : String) : Option Nat := [("/dev/stdin", 0), ("/dev/stdout", 1), ("/dev/stderr", 2)].lookup path
    match r with
    | .fromText channel body =>
      point channel (.source (← newSource (← expandText fuel body)))
      return none
    | .fromFile channel target =>
      let name ← expandText fuel target
      let s ← get
      let path := Text.ofOctetsOrSelf name
      if path == "/dev/null" then
        point channel (.source (← newSource []))
        return none
      match s.files.entry? path with
      | some (.file text _) =>
        point channel (.source (← newSource (Text.octets text)))
        return none
      | some .folder =>
        point channel (.source (← newSource []))
        return none
      | none => return some ("cannot open ".toList ++ name ++ ": No such file".toList)
    | .toFile channel append target =>
      let name ← expandText fuel target
      let s ← get
      let path := Text.ofOctetsOrSelf name
      if path == "/dev/null" then
        point channel .nowhere
        return none
      match device path with
      | some d =>
        match s.channels.lookup d with
        | some t => point channel t
        | none => pure ()
        return none
      | none =>
        match (if append then s.files.append path "" else s.files.write path "") with
        | .ok files =>
          set { s with files }
          point channel (.file (files.place path))
          return none
        | .error e => return some ("cannot create ".toList ++ name ++ (match e with
            | .isFolder _ => ": Is a directory"
            | _ => ": Directory nonexistent").toList)
    | .toChannel channel target =>
      let name ← expandText fuel target
      let s ← get
      if name == ['-'] then
        set { s with channels := s.channels.filter (·.1 != channel) }
        return none
      match (String.ofList name).toNat?.bind (fun n => s.channels.lookup n) with
      | some t =>
        point channel t
        return none
      | none =>
        if name.all Char.isDigit && !name.isEmpty then
          return some (name ++ ": Bad file descriptor".toList)
        else fail "Syntax error: Bad fd number".toList

def redirectAll : Nat → List Redirect → Run (Option (List Char))
  | 0, _ => return none
  | fuel + 1, rs => rs.foldlM (fun bad r => match bad with
      | some why => return some why
      | none => redirect fuel r) none

def runCommand : Nat → Bool → Command → Run Unit
  | 0, _, _ => throw .exit
  | fuel + 1, tested, c => do
    if (← get).options.contains 'n' then return ()
    match c with
    | .simple line assignments words redirects =>
      modify (fun s => { s with line, innerStatus := none })
      runSimple fuel tested assignments words redirects
      checkFailure tested
    | .redirected body rs =>
      withChannels do
        match ← redirectAll fuel rs with
        | some why =>
          warn why
          setStatus 2
          checkFailure tested
        | none => runCommand fuel tested body
    | .subshell body =>
      runApart fuel tested body
      checkFailure tested
    | .background body =>
      apart do
        point 0 (.source (← newSource []))
        runCommand fuel true body
      setStatus 0
    | .choose arms otherwise => runChoice fuel tested arms otherwise
    | .loop isUntil condition body =>
      modify (fun s => { s with loops := s.loops + 1 })
      let r ← ending (runLoop fuel tested isUntil condition body 0)
      modify (fun s => { s with loops := s.loops - 1 })
      match r with
      | .ok n => setStatus n
      | .error h => throw h
    | .each name words body =>
      let values ← match words with
        | some ws => expandWords fuel ws
        | none => pure (← get).arguments
      modify (fun s => { s with loops := s.loops + 1 })
      let r ← ending (runEach fuel tested name values body 0)
      modify (fun s => { s with loops := s.loops - 1 })
      match r with
      | .ok n => setStatus n
      | .error h => throw h
    | .select word arms =>
      let text ← expandText fuel word
      runSelect fuel tested text arms
    | .define name body =>
      modify (fun s => { s with
        functions := (name, body) :: s.functions.filter (·.1 != name), status := 0 })
    | .pipe commands =>
      runPipe fuel none commands
      checkFailure tested
    | .negate body =>
      runCommand fuel true body
      modify (fun s => { s with status := if s.status = 0 then 1 else 0 })
    | .both a b =>
      runCommand fuel true a
      if (← get).status = 0 then runCommand fuel tested b
    | .either a b =>
      runCommand fuel true a
      if (← get).status != 0 then runCommand fuel tested b
    | .sequence cs => cs.forM (runCommand fuel tested)

def runApart : Nat → Bool → Command → Run Unit
  | 0, _, _ => throw .exit
  | fuel + 1, tested, c => apart do
    let _ ← ending (runCommand fuel tested c)
    runFarewell fuel

def runFarewell : Nat → Run Unit
  | 0 => throw .exit
  | fuel + 1 => do
    let s ← get
    if !s.farewell.isEmpty then
      set { s with farewell := [] }
      let r ← ending (runText fuel false { rest := s.farewell, line := s.line })
      match r with
      | .ok _ => setStatus s.status
      | .error _ => pure ()

def runChoice : Nat → Bool → List (Command × Command) → Option Command → Run Unit
  | 0, _, _, _ => throw .exit
  | fuel + 1, tested, arms, otherwise => do
    match arms with
    | (condition, body) :: rest =>
      runCommand fuel true condition
      if (← get).status = 0 then runCommand fuel tested body
      else runChoice fuel tested rest otherwise
    | [] =>
      match otherwise with
      | some body => runCommand fuel tested body
      | none => setStatus 0

def runLoop : Nat → Bool → Bool → Command → Command → Nat → Run Nat
  | 0, _, _, _, _, _ => throw .exit
  | fuel + 1, tested, isUntil, condition, body, status => do
    let r ← ending (runCommand fuel true condition)
    match r with
    | .ok _ =>
      if ((← get).status = 0) == isUntil then return status
      let r ← ending (runCommand fuel tested body)
      let status := (← get).status
      if ← afterBody r then runLoop fuel tested isUntil condition body status
      else return status
    | .error h =>
      if ← afterBody (.error h) then runLoop fuel tested isUntil condition body status
      else return (← get).status

def runEach : Nat → Bool → String → List (List Char) → Command → Nat → Run Nat
  | 0, _, _, _, _, _ => throw .exit
  | fuel + 1, tested, name, values, body, status => do
    match values with
    | [] => return status
    | v :: rest =>
      assign name v
      let r ← ending (runCommand fuel tested body)
      let status := (← get).status
      if ← afterBody r then runEach fuel tested name rest body status else return status

def runSelect : Nat → Bool → List Char → List (List Word × Command) → Run Unit
  | 0, _, _, _ => throw .exit
  | fuel + 1, tested, text, arms => do
    match arms with
    | [] => setStatus 0
    | (patterns, body) :: rest =>
      let fits ← patterns.foldlM (fun found p => do
        if found then return true
        let g := ((← expandInto fuel false false p {}).toList).flatten
        return Glyphs.fits g text) false
      if fits then
        match body with
        | .sequence [] => setStatus 0
        | body => runCommand fuel tested body
      else runSelect fuel tested text rest

def runPipe : Nat → Option (List Char) → List Command → Run Unit
  | 0, _, _ => throw .exit
  | fuel + 1, input, commands => do
    let fed (step : Run Unit) : Run Unit := do
      match input with
      | some cs => point 0 (.source (← newSource cs))
      | none => pure ()
      step
    match commands with
    | [] => return ()
    | [c] => withChannels (fed (runApart fuel false c))
    | c :: rest =>
      let i ← newBuffer
      withChannels (fed do
        point 1 (.buffer i)
        runApart fuel false c)
      runPipe fuel (some (((← get).buffers[i]?).getD [])) rest

def runSimple : Nat → Bool → List (String × Word) → List Word → List Redirect → Run Unit
  | 0, _, _, _, _ => throw .exit
  | fuel + 1, tested, assignments, words, redirects => do
    let fields ← expandWords fuel words
    let isSpecial := match fields with
      | name :: _ => Builtin.special.contains (String.ofList name)
      | [] => true
    let stays := fields == ["exec".toList]
    let outer := (← get).channels.lookup 2
    let step : Run Unit := do
      match ← redirectAll fuel redirects with
      | some why =>
        warn why
        setStatus 2
        if isSpecial && !fields.isEmpty then throw .exit
      | none =>
        let before := (← get).bindings
        let exported := (← get).exported
        assignments.forM (fun (name, w) => do
          assign name (← expandText fuel w)
          if !isSpecial then modify (fun s => { s with exported := name :: s.exported }))
        let s ← get
        if s.options.contains 'x' then
          let values := assignments.map (fun (name, _) => (name ++ "=").toList ++ (s.bindings.lookup name).getD [])
          writeTo outer ((s.bindings.lookup "PS4").getD ['+', ' '] ++ joinWords [' '] (values ++ fields) ++ ['\n'])
        match fields with
        | [] => modify (fun s => { s with status := s.innerStatus.getD 0 })
        | name :: arguments =>
          let r ← ending (runNamed fuel tested true (String.ofList name) arguments)
          if !isSpecial && !assignments.isEmpty then
            modify (fun s => { s with
              exported
              bindings := assignments.foldl (fun b (n, _) =>
                match before.lookup n with
                | some v => Bindings.set b n v
                | none => b.filter (·.1 != n)) s.bindings })
          match r with
          | .ok _ => pure ()
          | .error h => throw h
    if stays then step else withChannels step

def runNamed : Nat → Bool → Bool → String → List (List Char) → Run Unit
  | 0, _, _, _, _ => throw .exit
  | fuel + 1, tested, withFunctions, name, arguments => do
    let s ← get
    match callee s name withFunctions with
    | .function body => runFunction fuel tested body arguments
    | .builtin =>
      match Builtin.table.lookup name with
      | some step => inNameOf (some name.toList) (step arguments)
      | none =>
        if name == "command" then runOther fuel tested name arguments
        else inNameOf (some name.toList) (runOther fuel tested name arguments)
    | .program run =>
      let input ← readRest 0
      let r := run ⟨programName name, arguments, input, (← get).files⟩
      write 1 r.output
      write 2 r.errors
      modify (fun s => { s with files := r.files.getD s.files, status := r.status })
    | .shell =>
      match arguments with
      | ['-', 'c'] :: text :: more => runScript fuel (more.head?.getD name.toList) (more.drop 1) text
      | w :: more =>
        match s.files.entry? (Text.ofOctetsOrSelf w) with
        | some (.file text _) => runScript fuel w more (Text.octets text)
        | _ =>
          write 2 (name.toList ++ ": 0: cannot open ".toList ++ w ++ ": No such file\n".toList)
          setStatus 2
      | [] => runScript fuel name.toList [] (← readRest 0)
    | .script text => runScript fuel name.toList arguments text
    | .forbidden =>
      warn ((name ++ ": Permission denied").toList)
      setStatus 126
    | .absent =>
      warn ((name ++ (if name.isEmpty then ": Permission denied" else ": not found")).toList)
      setStatus 127

def runFunction : Nat → Bool → Command → List (List Char) → Run Unit
  | 0, _, _, _ => throw .exit
  | fuel + 1, tested, body, arguments => do
    let s ← get
    set { s with arguments, saved := [], loops := 0, calls := s.calls + 1 }
    let r ← ending (runCommand fuel tested body)
    modify (fun t => { t with
      arguments := s.arguments
      loops := s.loops
      calls := s.calls
      saved := s.saved
      bindings := t.saved.foldl (fun b (n, v) => match v with
        | some v => Bindings.set b n v
        | none => b.filter (·.1 != n)) t.bindings })
    match r with
    | .error .back => return ()
    | .error h => throw h
    | .ok _ => return ()

def runOther : Nat → Bool → String → List (List Char) → Run Unit
  | 0, _, _, _ => throw .exit
  | fuel + 1, tested, name, arguments => do
    let s ← get
    let describe (w : List Char) (long : Bool) : Run Unit := do
      let n := String.ofList w
      let say (short : String) (what : String) : Run Unit :=
        write 1 ((if long then n ++ what else short) ++ "\n").toList
      match callee s n true with
      | .function _ => say n " is a shell function"
      | .builtin => say n (if Builtin.special.contains n then " is a special shell builtin"
          else " is a shell builtin")
      | .absent =>
        if long then write 1 ((n ++ ": not found\n").toList)
        setStatus 127
      | .forbidden => setStatus 127
      | _ =>
        let path := if n.toList.contains '/' then n else "/usr/bin/" ++ n
        say path (" is " ++ path)
    match name, arguments with
    | "eval", ws =>
      let text := joinWords [' '] ws
      if text.isEmpty then setStatus 0 else runText fuel tested { rest := text }
    | ".", w :: _ =>
      match s.files.entry? (Text.ofOctetsOrSelf w) with
      | some (.file text _) => inNameOf (some w) (runText fuel false { rest := Text.octets text })
      | _ => fail (if w.contains '/' then
            "cannot open ".toList ++ w ++ ": No such file".toList
          else w ++ ": not found".toList)
    | "command", ['-', 'v'] :: ws =>
      setStatus 0
      ws.forM (describe · false)
    | "command", ['-', 'V'] :: ws =>
      setStatus 0
      ws.forM (describe · true)
    | "command", w :: ws => runNamed fuel tested false (String.ofList w) ws
    | "type", ws =>
      setStatus 0
      ws.forM (describe · true)
    | "exec", w :: ws =>
      match callee s (String.ofList w) false with
      | .absent => fail (w ++ ": not found".toList) 127
      | .forbidden => fail (w ++ ": Permission denied".toList) 126
      | _ =>
        runNamed fuel tested false (String.ofList w) ws
        throw .exit
    | _, _ => setStatus 0

def runScript : Nat → List Char → List (List Char) → List Char → Run Unit
  | 0, _, _, _ => throw .exit
  | fuel + 1, name, arguments, text => do
    apart do
      modify (fun s => { s with
        name, arguments, bindings := s.inherited, functions := [], saved := [], options := []
        fixed := [], calls := 0, status := 0, command := none })
      runWhole fuel text

def runWhole : Nat → List Char → Run Unit
  | 0, _ => throw .exit
  | fuel + 1, text => do
    let _ ← ending (runText fuel false { rest := text })
    runFarewell fuel

/-- Runs a text line by line, so that a mistake is met when its line is reached. -/
def runText : Nat → Bool → Source → Run Unit
  | 0, _, _ => throw .exit
  | fuel + 1, tested, source => do
    match (Shell.readLine (4 * source.rest.length + 100)).run source with
    | .error refusal =>
      modify (fun s => { s with line := refusal.line })
      fail refusal.message.toList
    | .ok (none, _) => return ()
    | .ok (some commands, source) =>
      commands.forM (runCommand fuel tested)
      runText fuel tested source

end

structure Outcome where
  output : List Char
  errors : List Char
  status : Nat
  files : Files

def depth : Nat := 20000

/-- Runs a script with arguments, the first of which is its own name, and with options that are
switched on from the start. -/
def run (files : Files) (script : String) (arguments : List String) (switches : List Char) : Outcome :=
  let words := arguments.map Text.octets
  let start : State := {
    name := words.head?.getD []
    arguments := words.drop 1
    options := switches
    files }
  let (_, s) := Id.run ((runWhole depth (Text.octets script)).run start)
  { output := (s.buffers[0]?).getD []
    errors := (s.buffers[1]?).getD []
    status := s.status
    files := { s.files with here := files.here } }

end Supermartingale.Shell
