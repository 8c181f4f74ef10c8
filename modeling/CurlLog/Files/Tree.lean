import CurlLog.Files.ReadFailure

/-!
# Trees of files

A directory tree as a value, with the rules by which a path leads to a file. The tree is the
working directory; above it there are directories of which nothing is known.

* `FileTree.withFile` and `FileTree.withDirectory` build a tree.
* `FileTree.walk` follows the names of a path.
* `FileTree.read` reads the text of a file, or says why it cannot.

A path is followed name by name, so the first name that leads nowhere decides which failure is
reported. A file has nothing below it, not even `.` or the empty name after a final slash.
-/

namespace CurlLog

/-- A file with its bytes, or a directory with its entries. -/
inductive FileTree where
  | file (content : ByteArray)
  | directory (entries : List (Text × FileTree))

namespace FileTree

/-! ## Paths -/

/-- The names between the slashes of a path. There is an empty name at either end of a slash. -/
def names : (path : Text) → List Text
  | [] => [[]]
  | c :: path =>
    if c = '/' then [] :: names path
    else match names path with
      | [] => [[c]]
      | name :: rest => (c :: name) :: rest

theorem names_ne_nil (path : Text) : names path ≠ [] := by
  cases path with
  | nil => simp [names]
  | cons c path =>
    rw [names]
    split
    · simp
    · split <;> simp

/-- With slashes between them, the names of a path make up the path. -/
theorem intercalate_names (path : Text) : List.intercalate ['/'] (names path) = path := by
  induction path with
  | nil => rfl
  | cons c path ih =>
    rw [names]
    obtain ⟨name, rest, h⟩ := List.exists_cons_of_ne_nil (names_ne_nil path)
    rw [h] at ih ⊢
    split
    · next hc =>
      subst hc
      simpa using ih
    · cases rest with
      | nil => simpa using ih
      | cons next rest => simpa using ih

/-- Whether a name stands for the directory in which it is looked up. -/
def staysHere (name : Text) : Bool :=
  name == [] || name == ['.']

/-- Whether a name stands for the directory above the one in which it is looked up. -/
def goesUp (name : Text) : Bool :=
  name == ['.', '.']

/-! ## Building a tree -/

/-- The entries of a directory. A file has none. -/
def entries : FileTree → List (Text × FileTree)
  | file _ => []
  | directory es => es

/--
Changes what a list of names leads to. Directories that are missing on the way are made, and an
empty directory stands for what is missing at the end.
-/
def modify (change : FileTree → FileTree) : (place : List Text) → FileTree → FileTree
  | [], tree => change tree
  | name :: place, tree =>
    let below := (tree.entries.lookup name).getD (directory [])
    directory ((name, modify change place below) :: tree.entries.filter (·.1 != name))

/-- The tree with a directory at a place. One that is there keeps its entries. -/
def withDirectoryAt (tree : FileTree) (place : List Text) : FileTree :=
  modify (fun below => directory below.entries) place tree

/-- The places that a path comes by, from `here` on. A place is its names, the innermost first. -/
def placesFrom (here : List Text) : (path : List Text) → List (List Text)
  | [] => [here]
  | name :: path =>
    here :: placesFrom
      (if staysHere name then here else if goesUp name then here.tail else name :: here) path

/-- The places that a path comes by, from the top of the tree to its end. -/
def places (path : Text) : List (List Text) :=
  (placesFrom [] (names path)).map List.reverse

/-- The tree with a directory at a path, and at each place that the path comes by. -/
def withDirectory (path : Text) (tree : FileTree) : FileTree :=
  (places path).foldl withDirectoryAt tree

/-- The tree with a file at a path, and a directory at each place that the path comes by. -/
def withFile (path : Text) (content : ByteArray) (tree : FileTree) : FileTree :=
  let tree := (places path).dropLast.foldl withDirectoryAt tree
  modify (fun _ => file content) ((places path).getLast?.getD []) tree

/-! ## Following a path -/

/-- A single name may take this many bytes. -/
def maxNameSize : Nat := 255

/-- A whole path may take this many bytes. -/
def maxPathSize : Nat := 4095

/--
Follows the names from `here`. The directories above it are given nearest first; above the last
one there is a directory of which no entry is known.
-/
def walk (above : List FileTree) (here : FileTree) : List Text → Except ReadFailure FileTree
  | [] => .ok here
  | name :: path =>
    match here with
    | file _ => .error .notADirectory
    | directory es =>
      if staysHere name then walk above here path
      else if goesUp name then
        match above with
        | [] => walk [] (directory []) path
        | parent :: above => walk above parent path
      else if maxNameSize < Text.utf8Size name then .error .nameTooLong
      else match es.lookup name with
        | none => .error .notFound
        | some next => walk (here :: above) next path

/-- What a path leads to. A path that begins with a slash starts outside the tree. -/
def find (tree : FileTree) (path : Text) : Except ReadFailure FileTree :=
  if path.contains '\x00' then .error .nulInPath
  else if path = [] then .error .notFound
  else if maxPathSize < Text.utf8Size path then .error .nameTooLong
  else if path.head? = some '/' then walk [] (directory []) (names path)
  else walk [] tree (names path)

/-- The text of the file that a path leads to. -/
def read (tree : FileTree) (path : Text) : Except ReadFailure Text :=
  match tree.find path with
  | .error cause => .error cause
  | .ok (directory _) => .error .isADirectory
  | .ok (file content) =>
    match String.fromUTF8? content with
    | none => .error .invalidUtf8
    | some text => .ok text.toList

end FileTree

end CurlLog
