import FeatureLogic.Text.Characters
import FeatureLogic.Text.Rejection

/-!
# Readers

A reader takes a value from the front of a text. When it succeeds it may still keep a rejection for
later: the place where it could not read more, which is reported if the text fails there after all.
-/

namespace FeatureLogic.Text

/-- The text still to read, and the number of characters read before. -/
structure Cursor where
  index : Nat := 0
  rest : List Char
deriving DecidableEq

inductive Reply (α : Type) where
  | accept (a : α) (kept : Option Rejection) (cursor : Cursor)
  | reject (r : Rejection)
deriving DecidableEq

abbrev Reader (α : Type) := Cursor → Reply α

namespace Cursor

def advance (c : Cursor) : Cursor := ⟨c.index + 1, c.rest.tail⟩

def skipBlanks (c : Cursor) : Cursor :=
  ⟨c.index + (c.rest.takeWhile isBlank).length, c.rest.dropWhile isBlank⟩

def here (c : Cursor) : Rejection := { reach := c.index, position := c.index }

end Cursor

namespace Reader

variable {α β : Type}

def satisfy (p : Char → Bool) : Reader Char := fun c =>
  match c.rest with
  | x :: _ => if p x then .accept x none c.advance else .reject c.here
  | [] => .reject c.here

def expect (x : Char) : Reader Char := fun c =>
  match c.rest with
  | y :: _ =>
    if y = x then .accept x none c.advance else .reject { c.here with expected := [some x] }
  | [] => .reject { c.here with expected := [some x] }

def endOfText : Reader Unit := fun c =>
  match c.rest with
  | [] => .accept () none c
  | _ :: _ => .reject { c.here with expected := [none] }

def map (f : α → β) (p : Reader α) : Reader β := fun c =>
  match p c with
  | .accept a kept c => .accept (f a) kept c
  | .reject r => .reject r

def andThen (p : Reader α) (q : Reader β) : Reader (α × β) := fun c =>
  match p c with
  | .reject r => .reject r
  | .accept a kept c =>
    match q c with
    | .reject r => .reject (kept.elim r r.furthest)
    | .accept b kept' c => .accept (a, b) (Rejection.keep kept kept') c

def before (p : Reader α) (q : Reader β) : Reader β := (p.andThen q).map Prod.snd

def followedBy (p : Reader α) (q : Reader β) : Reader α := (p.andThen q).map Prod.fst

def orElse (p q : Reader α) : Reader α := fun c =>
  match p c with
  | .accept a kept c => .accept a kept c
  | .reject r =>
    match q c with
    | .accept a kept c => .accept a kept c
    | .reject r' => .reject (r.furthest r')

def optional (p : Reader α) : Reader (Option α) := fun c =>
  match p c with
  | .accept a kept c' => .accept (some a) kept c'
  | .reject r => .accept none (some r) c

/-- Reads on until `p` rejects, at most `fuel` times. `kept` is the rejection kept so far. -/
def manyFrom (p : Reader α) : Nat → Option Rejection → Cursor → List α × Option Rejection × Cursor
  | 0, kept, c => ([], kept, c)
  | fuel + 1, kept, c =>
    match p c with
    | .reject r => ([], Rejection.keep kept (some r), c)
    | .accept a kept' c =>
      let (as, result) := manyFrom p fuel (Rejection.keep kept kept') c
      (a :: as, result)

/-- As often as possible. The reader has to consume something each time. -/
def many (p : Reader α) : Reader (List α) := fun c =>
  let (as, kept, c) := manyFrom p (c.rest.length + 1) none c
  .accept as kept c

def many1 (p : Reader α) : Reader (List α) := fun c =>
  match p c with
  | .reject r => .reject r
  | .accept _ _ _ => many p c

/-- Items after the first one, each after a separator. A separator with no item after it is given
back. -/
def separatedFrom (p : Reader α) (separator : Reader β) :
    Nat → Option Rejection → Cursor → List α × Option Rejection × Cursor
  | 0, kept, c => ([], kept, c)
  | fuel + 1, kept, c =>
    match separator c with
    | .reject r => ([], Rejection.keep kept (some r), c)
    | .accept _ kept' c' =>
      let kept := Rejection.keep kept kept'
      match p c' with
      | .reject r => ([], Rejection.keep kept (some r), c)
      | .accept a kept' c =>
        let (as, result) := separatedFrom p separator fuel (Rejection.keep kept kept') c
        (a :: as, result)

def separatedBy (p : Reader α) (separator : Reader β) : Reader (List α) := fun c =>
  match p c with
  | .reject r => .accept [] (some r) c
  | .accept a kept c =>
    let (as, kept, c) := separatedFrom p separator (c.rest.length + 1) kept c
    .accept (a :: as) kept c

def padded (p : Reader α) : Reader α := fun c =>
  match p c.skipBlanks with
  | .accept a kept c => .accept a kept c.skipBlanks
  | .reject r => .reject r

def labelled (l : Label) (p : Reader α) : Reader α := fun c =>
  match p c with
  | .accept a kept c => .accept a (kept.map (·.label l)) c
  | .reject r => .reject (r.label l)

def located (p : Reader α) : Reader (α × Nat × Nat) := fun c =>
  match p c with
  | .accept a kept c' => .accept (a, c.index, c'.index) kept c'
  | .reject r => .reject r

/-- Checks what was read. A fault is reported at the beginning but reaches to the end. -/
def check (p : Reader α) (f : α → Except WordFault β) : Reader β := fun c =>
  match p c with
  | .reject r => .reject r
  | .accept a kept c' =>
    match f a with
    | .ok b => .accept b kept c'
    | .error fault => .reject { reach := c'.index, position := c.index, fault := some fault }

end Reader

end FeatureLogic.Text
