import Mathlib

namespace LsmKv.Kv
set_option autoImplicit true

section Map
variable {K V : Type} [DecidableEq K]

/-- A write to one key. -/
inductive Op (K V : Type) where
  | put (k : K) (v : V)
  | delete (k : K)

def Op.key : Op K V → K
  | put k _ => k
  | delete k => k

/-- What the key has afterwards. -/
def Op.value : Op K V → Option V
  | put _ v => some v
  | delete _ => none

def Op.apply (m : K → Option V) (o : Op K V) : K → Option V := Function.update m o.key o.value

/-- The writes in order. -/
def applyAll (m : K → Option V) (os : List (Op K V)) : K → Option V := os.foldl Op.apply m

theorem applyAll_append (m : K → Option V) (os os' : List (Op K V)) :
    applyAll m (os ++ os') = applyAll (applyAll m os) os' :=
  List.foldl_append

theorem applyAll_concat (m : K → Option V) (os : List (Op K V)) (o : Op K V) :
    applyAll m (os ++ [o]) = (applyAll m os |> fun m => o.apply m) :=
  applyAll_append m os [o]

/-- A key-value store with views of its past: what clients of the store may rely on. -/
structure Store (K V : Type) where
  map : K → Option V := fun _ => none
  views : ℕ → Option (K → Option V) := fun _ => none

inductive Event (K V : Type) where
  | commit (ops : List (Op K V))
  | take (h : ℕ)
  | release (h : ℕ)
  | crash

def Store.step (A : Store K V) : Event K V → Store K V
  | .commit ops => { A with map := applyAll A.map ops }
  | .take h => { A with views := Function.update A.views h (some A.map) }
  | .release h => { A with views := Function.update A.views h none }
  | .crash => { A with views := fun _ => none }

def Store.run (A : Store K V) (es : List (Event K V)) : Store K V := es.foldl Store.step A

theorem Store.run_append (A : Store K V) (es es' : List (Event K V)) :
    A.run (es ++ es') = (A.run es).run es' :=
  List.foldl_append

theorem Store.run_commits (A : Store K V) (oss : List (List (Op K V))) :
    A.run (oss.map Event.commit) = { A with map := applyAll A.map oss.flatten } := by
  induction oss generalizing A with
  | nil => rfl
  | cons os oss ih =>
    rw [List.map_cons, List.flatten_cons, applyAll_append]
    exact ih (A.step (.commit os))

end Map

end LsmKv.Kv
