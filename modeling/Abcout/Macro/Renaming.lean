import Abcout.Symbols

/-!
# Abcout.Macro.Renaming — fresh names for the labels of an expansion

Every expansion gives each local label a name of its own, made of macro, label and number of the call.  When that
name is in use, a number is put behind it.
-/

namespace Abcout

/-- New names by old names. -/
abbrev Renaming := Std.ExtTreeMap String String

namespace Renaming

/-- The name that a renaming gives. -/
def apply (r : Renaming) (name : String) : String := r.getD name name

/-- The name of a local label in one expansion. -/
def mangle (owner label : String) (call : Nat) : String :=
  reservedInitial.toString ++ owner ++ "_" ++ label ++ "_" ++ call.repr

/-- A name with a number behind it. -/
def numbered (base : String) (suffix : Int32) : String := base ++ "_" ++ toString suffix

/-- The largest number behind a name. -/
def maxSuffix : Nat := 2147483647

/-- The search for a name that is not taken: `name` itself, or else `base` with the first number above `suffix`
that gives one.  The counter has 32 bits; it can be raised `left` times, and where it would overflow the search
ends. -/
def firstFree (taken : String → Bool) (base : String) : (left : Nat) → (suffix : Int32) →
    (name : String) → Option String
  | 0, _, name => if taken name then none else some name
  | left + 1, suffix, name =>
    if taken name then firstFree taken base left (suffix + 1) (numbered base (suffix + 1)) else some name

/-- The names that come in turn if numbers have no end: the name itself, and the name with a number behind it. -/
def candidate (base : String) : Nat → String
  | 0 => base
  | n + 1 => base ++ "_" ++ (n + 1).repr

/-- The first candidate from number `n` on that is not taken, among the next `tries` and the one after them. -/
def firstFrom (taken : String → Bool) (base : String) : (tries : Nat) → (n : Nat) → String
  | 0, n => candidate base n
  | tries + 1, n =>
    if taken (candidate base n) then firstFrom taken base tries (n + 1) else candidate base n

/-- A name that is not taken, if at most `bound` names are.  No name can be relied on past an overflow; here the
numbers go on then, so that there always is one. -/
def freeName (taken : String → Bool) (bound : Nat) (base : String) : String :=
  match firstFree taken base maxSuffix 0 base with
  | some name => name
  | none => firstFrom taken base bound (maxSuffix + 1)

/-- Names given so far. -/
structure Supply where
  names : Renaming := ∅
  picked : NameSet := ∅

/-- Gives one label a name that is neither taken nor given before.  At most `bound` names are taken. -/
def Supply.pick (taken : String → Bool) (bound : Nat) (owner : String) (call : Nat) (s : Supply)
    (label : String) : Supply :=
  let name := freeName (fun n => taken n || s.picked.contains n) (bound + s.picked.size) (mangle owner label call)
  ⟨s.names.insert label name, s.picked.insert name⟩

/-- Names for the local labels of one expansion of the macro `owner`, in the order of the labels. -/
def fresh (taken : String → Bool) (bound : Nat) (owner : String) (locals : NameSet) (call : Nat) : Renaming :=
  (locals.toList.foldl (Supply.pick taken bound owner call) {}).names

end Renaming

end Abcout
