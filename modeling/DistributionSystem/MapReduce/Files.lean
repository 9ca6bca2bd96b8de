import Mathlib.Data.List.Basic
import Mathlib.Logic.Function.Basic

/-! The files of a job: their names (`common.go`), which never clash, and a file system that
returns what was written to it. -/

namespace DistributionSystem.MapReduce

/-- The name of the file a map task writes for a reduce task. -/
def reduceName (jobName : String) (mapTask reduceTask : Nat) : String :=
  "mrtmp." ++ jobName ++ "-" ++ Nat.repr mapTask ++ "-" ++ Nat.repr reduceTask

/-- The name of the output file of a reduce task. -/
def mergeName (jobName : String) (reduceTask : Nat) : String :=
  "mrtmp." ++ jobName ++ "-res-" ++ Nat.repr reduceTask

/-- The name of the file `merge` writes. -/
def outputName (jobName : String) : String := "mrtmp." ++ jobName

section names

theorem isDigit_of_mem_repr {n : Nat} {c : Char} (h : c ∈ (Nat.repr n).toList) :
    c.isDigit = true := by
  rw [Nat.repr_eq_ofList_toDigits, String.toList_ofList] at h
  exact Nat.isDigit_of_mem_toDigits (by decide) (by decide) h

theorem dash_notMem_repr (n : Nat) : '-' ∉ (Nat.repr n).toList :=
  fun h => absurd (isDigit_of_mem_repr h) (by decide)

theorem eq_of_toList_repr {m n : Nat} (h : (Nat.repr m).toList = (Nat.repr n).toList) : m = n := by
  have hval := congrArg (fun ds => Nat.ofDigitChars 10 ds 0) h
  simpa [Nat.repr_eq_ofList_toDigits, Nat.ofDigitChars_toDigits] using hval

theorem toList_reduceName (jobName : String) (m r : Nat) :
    (reduceName jobName m r).toList =
      (outputName jobName).toList ++ '-' :: ((Nat.repr m).toList ++ '-' :: (Nat.repr r).toList) := by
  simp [reduceName, outputName]

theorem toList_mergeName (jobName : String) (r : Nat) :
    (mergeName jobName r).toList =
      (outputName jobName).toList ++ '-' :: 'r' :: ("es-".toList ++ (Nat.repr r).toList) := by
  simp [mergeName, outputName]

/-- The names of two intermediate files differ unless both task numbers agree. -/
theorem reduceName_inj {jobName : String} {m r m' r' : Nat}
    (h : reduceName jobName m r = reduceName jobName m' r') : m = m' ∧ r = r' := by
  have hl := congrArg String.toList h
  rw [toList_reduceName, toList_reduceName] at hl
  have hl := List.tail_eq_of_cons_eq (List.append_cancel_left hl)
  -- the digits hold no dash, so the dash between the numbers is in the same place
  obtain ⟨hm, -, hr⟩ := (List.append_cons_inj_of_notMem (dash_notMem_repr m)
    (dash_notMem_repr r)).mp hl
  exact ⟨eq_of_toList_repr hm, eq_of_toList_repr hr⟩

theorem mergeName_inj {jobName : String} {r r' : Nat}
    (h : mergeName jobName r = mergeName jobName r') : r = r' := by
  have hl := congrArg String.toList h
  rw [toList_mergeName, toList_mergeName] at hl
  have hl := List.append_cancel_left hl
  simp only [List.cons.injEq, true_and] at hl
  exact eq_of_toList_repr (List.append_cancel_left hl)

/-- After the job's name an intermediate file goes on with a digit and an output file
with a letter. -/
theorem reduceName_ne_mergeName (jobName : String) (m r r' : Nat) :
    reduceName jobName m r ≠ mergeName jobName r' := by
  intro h
  have hl := congrArg String.toList h
  rw [toList_reduceName, toList_mergeName] at hl
  have hl := List.tail_eq_of_cons_eq (List.append_cancel_left hl)
  cases hd : (Nat.repr m).toList with
  | nil => exact Nat.repr_ne_empty (String.toList_eq_nil_iff.mp hd)
  | cons c cs =>
    have hc : c.isDigit = true := isDigit_of_mem_repr (n := m) (by rw [hd]; exact List.mem_cons_self)
    rw [hd, List.cons_append] at hl
    rw [List.head_eq_of_cons_eq hl] at hc
    exact absurd hc (by decide)

/-- No name as short as the one of the final output is one of these. -/
theorem ne_reduceName {jobName f : String}
    (h : f.toList.length ≤ (outputName jobName).toList.length) (m r : Nat) :
    f ≠ reduceName jobName m r := by
  rintro rfl
  simp only [toList_reduceName, List.length_append, List.length_cons] at h
  omega

theorem ne_mergeName {jobName f : String}
    (h : f.toList.length ≤ (outputName jobName).toList.length) (r : Nat) :
    f ≠ mergeName jobName r := by
  rintro rfl
  simp only [toList_mergeName, List.length_append, List.length_cons] at h
  omega

theorem outputName_ne_reduceName (jobName : String) (m r : Nat) :
    outputName jobName ≠ reduceName jobName m r := ne_reduceName (Nat.le_refl _) m r

theorem outputName_ne_mergeName (jobName : String) (r : Nat) :
    outputName jobName ≠ mergeName jobName r := ne_mergeName (Nat.le_refl _) r

end names

/-- What each file holds. -/
abbrev FileSystem := String → Option String

namespace FileSystem

/-- `os.Create`: the file is there and empty. -/
def create (fs : FileSystem) (name : String) : FileSystem := Function.update fs name (some "")

/-- A write at the end of an open file. -/
def append (fs : FileSystem) (name text : String) : FileSystem :=
  Function.update fs name ((fs name).map (· ++ text))

/-- A new file with the texts `texts` written one after the other. -/
def writeAll (fs : FileSystem) (name : String) (texts : List String) : FileSystem :=
  texts.foldl (fun fs text => fs.append name text) (fs.create name)

@[simp] theorem create_self (fs : FileSystem) (name : String) : fs.create name name = some "" :=
  Function.update_self ..

theorem create_of_ne {fs : FileSystem} {name f : String} (h : f ≠ name) :
    fs.create name f = fs f :=
  Function.update_of_ne h ..

theorem append_self {fs : FileSystem} {name s : String} (h : fs name = some s) (text : String) :
    fs.append name text name = some (s ++ text) := by
  simp [append, h]

theorem append_of_ne {fs : FileSystem} {name f : String} (h : f ≠ name) (text : String) :
    fs.append name text f = fs f :=
  Function.update_of_ne h ..

theorem foldl_append_eq {fs : FileSystem} {name s : String} (h : fs name = some s)
    (texts : List String) :
    texts.foldl (fun fs text => fs.append name text) fs =
      Function.update fs name (some (s ++ String.join texts)) := by
  induction texts generalizing fs s with
  | nil => simp [← h]
  | cons text texts ih =>
    rw [List.foldl_cons, ih (append_self h text)]
    simp [append, String.join_cons, String.append_assoc]

theorem writeAll_eq (fs : FileSystem) (name : String) (texts : List String) :
    fs.writeAll name texts = Function.update fs name (some (String.join texts)) := by
  rw [writeAll, foldl_append_eq (create_self fs name)]
  simp [create]

/-- `fs'` is `fs` with a new text in each of the files `name r` for `r < n`. -/
def Rewrites (n : Nat) (name text : Nat → String) (fs fs' : FileSystem) : Prop :=
  (∀ r < n, fs' (name r) = some (text r)) ∧ ∀ f, (∀ r < n, f ≠ name r) → fs' f = fs f

/-- Creating the files one by one. -/
theorem rewrites_create (n : Nat) (name : Nat → String) (fs : FileSystem) :
    Rewrites n name (fun _ => "") fs
      ((List.range n).foldl (fun fs i => fs.create (name i)) fs) := by
  induction n with
  | zero => exact ⟨fun r hr => absurd hr (by omega), fun f _ => rfl⟩
  | succ n ih =>
    rw [List.range_succ, List.foldl_append, List.foldl_cons, List.foldl_nil]
    refine ⟨fun r hr => ?_, fun f hf => ?_⟩
    · by_cases heq : name r = name n
      · rw [heq, create_self]
      · rw [create_of_ne heq]
        have hne : r ≠ n := fun h => heq (congrArg name h)
        exact ih.1 r (by omega)
    · rw [create_of_ne (hf n (by omega))]
      exact ih.2 f fun r hr => hf r (by omega)

end FileSystem

end DistributionSystem.MapReduce
