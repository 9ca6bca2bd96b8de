import Mathlib.Data.List.Basic

/-! The fields of a list: its maximal runs of elements that satisfy a predicate, found in one
pass from left to right. -/

namespace Fields

variable {A : Type}

/-- The pass, with the run that it is in. -/
def scan (p : A → Bool) : List A → List A → List (List A)
  | run, [] => if run.isEmpty then [] else [run]
  | run, a :: l =>
    if p a then scan p (run ++ [a]) l
    else if run.isEmpty then scan p [] l
    else run :: scan p [] l

def fields (p : A → Bool) (l : List A) : List (List A) := scan p [] l

variable {p : A → Bool} {run rest w l : List A}

end Fields
