import Supermartingale.Files
import Supermartingale.Polynomial.Powers

/-!
# Sessions

What a run works on: the files it reads and writes, the answers that the solver will give, the
tables of powers made so far, and what has been printed. An action may fail, but what it did to
the session before stays done.
-/

namespace Supermartingale

structure Answer where
  status : Value
  model : List (String × Value)

def Answer.isSatisfied (a : Answer) : Bool := a.status.isText "sat"

structure Session where
  files : Files
  answers : List Answer := []
  shelf : Powers.Shelf := {}
  printed : String := ""

/-- A step of a session in a surrounding monad: it may fail, and keeps what it did. -/
abbrev SessionT (m : Type → Type) (α : Type) := ExceptT Error (StateT Session m) α

abbrev SessionM (α : Type) := SessionT Id α

namespace SessionM

def runIn {α : Type} (a : SessionM α) (s : Session) : Except Error α × Session := (ExceptT.run a).run s

def lift {m : Type → Type} [Monad m] {α : Type} (a : SessionM α) : SessionT m α :=
  ExceptT.mk (fun s => pure (a.runIn s))

def say {m : Type → Type} [Monad m] (line : String) : SessionT m Unit :=
  modify (fun s => { s with printed := s.printed ++ line ++ "\n" })

def files : SessionM Files := do return (← get).files

def readFile (p : String) : SessionM String := do (← files).read p

def change (f : Files → Except Error Files) : SessionM Unit := do
  let changed ← f (← files)
  modify (fun s => { s with files := changed })

def appendFile (p text : String) : SessionM Unit := change (fun f => f.append p text)

def writeFile (p text : String) : SessionM Unit := change (fun f => f.write p text)

def withShelf {α : Type} (f : Powers.Shelf → Except Error (α × Powers.Shelf)) : SessionM α := do
  let (x, shelf) ← f (← get).shelf
  modify (fun s => { s with shelf })
  return x

def ask : SessionM Answer := do
  match (← get).answers with
  | [] => throw .noAnswer
  | [a] => return a
  | a :: rest =>
    modify (fun s => { s with answers := rest })
    return a

end SessionM

class Clock (m : Type → Type) where
  now : m Float

instance : Clock Id := ⟨(0.0 : Float)⟩

namespace SessionM

def timed {m : Type → Type} [Monad m] [Clock m] {α : Type} (a : SessionM α) : SessionT m (α × Float) := do
  let start ← (liftM (Clock.now : m Float) : StateT Session m Float)
  let x ← lift a
  let stop ← (liftM (Clock.now : m Float) : StateT Session m Float)
  return (x, stop - start)

end SessionM

end Supermartingale
