import ChipEight.Instruction
import ChipEight.Table

/-!
The directory that images are kept in. A name leads through steps with slashes between them. No
step makes a directory, so the only directories are this one, those above it and the root.
-/
namespace ChipEight

/-- Why a name leads to no file. -/
inductive FileFault
  | nullCharacter
  | tooLong
  | absent
  | throughFile
  | isDirectory
  deriving DecidableEq, Repr

/-- Files by the steps that lead to them, and the most bytes of a path from here, each step with the
slash before it. How long a path may be depends on the path of the directory itself. -/
structure Directory where
  files : Table (List String) (List Byte)
  pathLimit : Nat

namespace Directory

/-- The most bytes of a step. -/
def stepLimit : Nat := 255

/-- The step to the directory above. -/
def up : String := ".."

def root : String := "/"

/-- The steps that a name takes. Empty steps and single dots lead nowhere. A name that starts with a
slash starts at the root, and above the root is the root. -/
def steps (name : String) : List String :=
  let between := (name.toList.splitOn '/').map String.ofList
  let taken := between.filter fun step => step ≠ "" ∧ step ≠ "."
  if name.toList.head? = some '/' then root :: taken.dropWhile (· = up) else taken

/-- What a file is called: the last step to it. -/
def lastStep (name : String) : Option String :=
  (steps name).getLast?

/-- Takes steps from directory to directory, of which `taken` led here, and then one to a file. That
file need not be there. -/
def walk (d : Directory) (taken : List String) : List String → Except FileFault (List String)
  | [] => .error .isDirectory
  | step :: rest =>
    if step = up ∨ step = root then walk d (taken ++ [step]) rest
    else if stepLimit < step.utf8ByteSize then .error .tooLong
    else if rest.isEmpty then .ok (taken ++ [step])
    else if (d.files.get? (taken ++ [step])).isSome then .error .throughFile
    else .error .absent

/-- Where the file of a name is or could be. -/
def find (d : Directory) (name : String) : Except FileFault (List String) :=
  if name.toList.contains '\x00' then .error .nullCharacter
  else if d.pathLimit < (steps name).foldl (fun length step => length + step.utf8ByteSize + 1) 0 then
    .error .tooLong
  else d.walk [] (steps name)

/-- A directory without files; the usual path of it is of 16 bytes. -/
def empty (pathLimit : Nat := 4079) : Directory := ⟨.empty, pathLimit⟩

def read (d : Directory) (name : String) : Except FileFault (List Byte) := do
  match d.files.get? (← d.find name) with
  | some image => return image
  | none => throw .absent

def write (d : Directory) (name : String) (image : List Byte) : Except FileFault Directory := do
  return { d with files := d.files.put (← d.find name) image }

example : steps "./a//b/" = ["a", "b"] := by decide +kernel
example : steps "/../a" = ["/", "a"] := by decide +kernel
example : empty.find ".." = .error .isDirectory := by rfl
example : empty.find "a/b" = .error .absent := by rfl

end Directory
end ChipEight
