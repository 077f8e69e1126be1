import DerivedSignal.FileTree

namespace DerivedSignal

/-- Work that ends with a result after some accesses to files. -/
inductive Dialogue (α : Type) where
  | done (result : α)
  | read (path : String) (next : Except FileFault String → Dialogue α)
  | write (path text : String) (next : Except FileFault Unit → Dialogue α)
  | create (path : String) (next : Except FileFault Unit → Dialogue α)

namespace Dialogue

variable {α β : Type}

/-- Goes on with the result of a dialogue. -/
def andThen : Dialogue α → (α → Dialogue β) → Dialogue β
  | .done a, f => f a
  | .read path next, f => .read path fun answer => (next answer).andThen f
  | .write path text next, f => .write path text fun answer => (next answer).andThen f
  | .create path next, f => .create path fun answer => (next answer).andThen f

instance : Monad Dialogue where
  pure := .done
  bind := andThen

/-- Asks for the text of a file. -/
def readText (path : String) : Dialogue (Except FileFault String) := .read path .done

/-- Writes a file. -/
def writeText (path text : String) : Dialogue (Except FileFault Unit) := .write path text .done

/-- Creates a directory and those on the way to it. -/
def createDirectories (path : String) : Dialogue (Except FileFault Unit) := .create path .done

/-- The tree after a change, or the one before it with the reason why there is none. -/
def answered (t : FileTree) : Except FileFault FileTree → FileTree × Except FileFault Unit
  | .ok t => (t, .ok ())
  | .error e => (t, .error e)

/-- Holds a dialogue with a file tree. -/
def run : Dialogue α → FileTree → FileTree × α
  | .done a, t => (t, a)
  | .read path next, t => (next (t.readText path)).run t
  | .write path text next, t =>
    let (t, answer) := answered t (t.write path text)
    (next answer).run t
  | .create path next, t =>
    let (t, answer) := answered t (t.createDirectories path)
    (next answer).run t

end Dialogue

end DerivedSignal
