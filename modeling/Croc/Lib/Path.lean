import Croc.Lib.Bytes

/-! Unix paths: joining as text, and where a path leads in a file system without links. -/
namespace Croc.Lib

/-- The components of a place in the file system, from the root. -/
abbrev Location := List Bytes

namespace Location

/-- The path of a location as text, if its components are. -/
def text (loc : Location) : Option String :=
  fromUtf8 (if loc = [] then asBytes "/" else loc.flatMap fun part => asBytes "/" ++ part)

end Location

namespace Path

/-- `Path::join`: an absolute name replaces the folder. -/
def join (folder name : String) : String :=
  if name.toList.head? = some '/' then name
  else if folder.toList.getLast?.all (· == '/') then folder ++ name
  else folder ++ "/" ++ name

/-- The parts between slashes. -/
def split : List Char → List (List Char)
  | [] => [[]]
  | c :: cs =>
    if c = '/' then [] :: split cs
    else match split cs with
      | [] => [[c]]
      | part :: parts => (c :: part) :: parts

def enter (loc : Location) (part : List Char) : Location :=
  if part = [] ∨ part = ['.'] then loc
  else if part = ['.', '.'] then loc.dropLast
  else loc ++ [asBytes (String.ofList part)]

/-- Where a path leads from the current directory. -/
def resolve (cwd : Location) (path : String) : Location :=
  (split path.toList).foldl enter (if path.toList.head? = some '/' then [] else cwd)

theorem isPrefix_enter (loc : Location) {part : List Char} (h : part ≠ ['.', '.']) :
    loc <+: enter loc part := by
  unfold enter
  split
  · exact List.prefix_refl loc
  · exact List.prefix_append loc _

theorem isPrefix_foldl_enter {parts : List (List Char)} (h : ['.', '.'] ∉ parts)
    (loc : Location) : loc <+: parts.foldl enter loc := by
  induction parts generalizing loc with
  | nil => exact List.prefix_refl loc
  | cons part parts ih =>
    rw [List.mem_cons, not_or] at h
    exact (isPrefix_enter loc (Ne.symm h.1)).trans (ih h.2 _)

/-- A relative path that never climbs leads to a place inside the current directory. -/
theorem isPrefix_resolve {path : String} (hrel : path.toList.head? ≠ some '/')
    (hdots : ['.', '.'] ∉ split path.toList) (cwd : Location) : cwd <+: resolve cwd path := by
  rw [resolve, if_neg hrel]
  exact isPrefix_foldl_enter hdots cwd

end Path
end Croc.Lib
