import DistributionSystem.Lib.Fields
import DistributionSystem.MapReduce.Rerun
import Mathlib.Data.List.Perm.Basic

/-! The inverted index (`main/ii.go`). `mapF` reads its words from a Go map, so the order of the
pairs is another one in every call, also when a map task is executed again. `reduceF` sorts the
values it is given, so the order does not get as far as the output. -/

namespace DistributionSystem.MapReduce

section orders

variable {reduceF : String → List String → String}

end orders

namespace InvertedIndex

/-- `strings.FieldsFunc`: `f` holds for the characters between the fields. -/
def fieldsFunc (s : String) (f : Char → Bool) : List String :=
  (Fields.fields (fun c => !f c) s.toList).map String.ofList

variable (isLetter : Char → Bool)

/-- The Go map that `mapF` builds. -/
def wordToDoc (document value : String) : AList fun _ : String => String :=
  (fieldsFunc value fun c => !isLetter c).foldl (Grouping.put id fun _ => document) ∅

/-- `iterate` is the order in which this call reads the map. -/
def mapF (iterate : List KeyValue → List KeyValue) (document value : String) : List KeyValue :=
  iterate ((wordToDoc isLetter document value).entries.map fun e => ⟨e.1, e.2⟩)

def reduceF (_ : String) (values : List String) : String :=
  let values := values.insertionSort (· ≤ ·)
  Nat.repr values.length ++ " " ++ ",".intercalate values

variable {isLetter}

/-- The pairs of a call, in the order in which the model has them. -/
def pairs (isLetter : Char → Bool) : String → String → List KeyValue := mapF isLetter id

section index

variable {documents : List String} {contents : String → String} {w : String}

/-- All pairs of the job, in the order of the documents. -/
def emitted (isLetter : Char → Bool) (documents : List String) (contents : String → String) :
    List KeyValue := documents.flatMap fun d => pairs isLetter d (contents d)

end index

/-- The job with the functions of `ii.go`. -/
def job (isLetter : Char → Bool) (jobName : String) (documents : List String) (nReduce : Nat) :
    Job := ⟨jobName, documents, nReduce, pairs isLetter, reduceF⟩

end InvertedIndex

end DistributionSystem.MapReduce
