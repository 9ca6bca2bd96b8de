import DistributionSystem.MapReduce.Tasks

/-! The texts `encoding/json` writes for a `KeyValue` whose strings have no characters to escape
but the quote and the backslash, and the decoder for streams of them. -/

namespace DistributionSystem.MapReduce

namespace Codec

/-- The characters of a string between its quotes. -/
def quote (s : List Char) : List Char :=
  s.flatMap fun c => if c = '"' ∨ c = '\\' then ['\\', c] else [c]

/-- The string up to the closing quote, and what follows the quote. -/
def unquote : List Char → Option (List Char × List Char)
  | [] => none
  | '"' :: rest => some ([], rest)
  | ['\\'] => none
  | '\\' :: c :: rest => (unquote rest).map fun (s, rest) => (c :: s, rest)
  | c :: rest => (unquote rest).map fun (s, rest) => (c :: s, rest)

/-- What follows `token`. -/
def skip (token l : List Char) : Option (List Char) :=
  if token.isPrefixOf l then some (l.drop token.length) else none

def openKey : List Char := "\x7b\"Key\":\"".toList
def openValue : List Char := ",\"Value\":\"".toList
def close : List Char := "\x7d\n".toList

def encodeChars (kv : KeyValue) : List Char :=
  openKey ++ (quote kv.key.toList ++ '"' :: (openValue ++ (quote kv.value.toList ++ '"' :: close)))

/-- The first pair of a text. -/
def decodeOne (l : List Char) : Option (KeyValue × List Char) := do
  let l ← skip openKey l
  let (k, l) ← unquote l
  let l ← skip openValue l
  let (v, l) ← unquote l
  let l ← skip close l
  some (⟨String.ofList k, String.ofList v⟩, l)

/-- The pairs of a text that holds at most `fuel` of them. -/
def decodeList : Nat → List Char → List KeyValue × Bool
  | _, [] => ([], true)
  | 0, _ :: _ => ([], false)
  | fuel + 1, c :: l =>
    match decodeOne (c :: l) with
    | none => ([], false)
    | some (kv, rest) => (kv :: (decodeList fuel rest).1, (decodeList fuel rest).2)

theorem skip_append (token l : List Char) : skip token (token ++ l) = some l := by
  simp [skip]

theorem unquote_quote (s rest : List Char) : unquote (quote s ++ '"' :: rest) = some (s, rest) := by
  induction s with
  | nil => simp [quote, unquote]
  | cons c s ih =>
    simp only [quote, List.flatMap_cons, List.append_assoc] at ih ⊢
    split
    · simp [unquote, ih]
    · rename_i hc
      have hc : c ≠ '"' ∧ c ≠ '\\' := by simpa using hc
      simp [unquote, ih, hc.1, hc.2]

theorem decodeOne_encode (kv : KeyValue) (l : List Char) :
    decodeOne (encodeChars kv ++ l) = some (kv, l) := by
  simp [decodeOne, encodeChars, skip_append, unquote_quote, List.append_assoc]

theorem decodeList_encode (kvs : List KeyValue) (fuel : Nat) (h : kvs.length ≤ fuel) :
    decodeList fuel (kvs.flatMap encodeChars) = (kvs, true) := by
  induction kvs generalizing fuel with
  | nil => cases fuel <;> rfl
  | cons kv kvs ih =>
    cases fuel with
    | zero => exact absurd h (by simp)
    | succ fuel =>
      have hone := decodeOne_encode kv (kvs.flatMap encodeChars)
      have hrest := ih fuel (by simpa using h)
      rw [List.flatMap_cons]
      cases hl : encodeChars kv ++ kvs.flatMap encodeChars with
      | nil => simp [encodeChars] at hl
      | cons c l =>
        rw [hl] at hone
        simp only [decodeList, hone, hrest]

theorem length_le_encode (kvs : List KeyValue) :
    kvs.length ≤ (kvs.flatMap encodeChars).length := by
  induction kvs with
  | nil => exact Nat.le_refl 0
  | cons kv kvs ih =>
    simp only [List.flatMap_cons, List.length_append, List.length_cons, encodeChars]
    omega

theorem toList_join (ss : List String) : (String.join ss).toList = ss.flatMap String.toList := by
  induction ss with
  | nil => rfl
  | cons s ss ih => simp [String.join_cons, ih]

end Codec

open Codec in
/-- `encoding/json` on pairs of strings that need no other escapes. -/
def Json.ofQuotes : Json where
  encode kv := String.ofList (encodeChars kv)
  decodeAll text := decodeList text.toList.length text.toList
  decode_encode kvs := by
    have hlist : (String.join (kvs.map fun kv => String.ofList (encodeChars kv))).toList =
        kvs.flatMap encodeChars := by
      rw [toList_join, List.flatMap_map]
      simp
    rw [hlist]
    exact decodeList_encode kvs _ (length_le_encode kvs)

example : Json.ofQuotes.encode ⟨"a\"b", "1"⟩ =
    "\x7b\"Key\":\"a\\\"b\",\"Value\":\"1\"\x7d\n" := by decide +kernel

end DistributionSystem.MapReduce
