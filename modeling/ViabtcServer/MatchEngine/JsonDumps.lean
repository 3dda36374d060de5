import ViabtcServer.MatchEngine.Core
import ViabtcServer.Decimal.Alike
import Mathlib.Data.List.Sort
import Mathlib.Algebra.BigOperators.Group.List.Basic

/-!
# The text of a JSON value

`json_dumps` of jansson with the flags the engine uses, and what a text weighs when
every character has a weight: its bytes, or the bytes of its escape.
-/

namespace ViabtcServer.MatchEngine

open Decimal

/-- What jansson prints of a real number. -/
class RealText where
  realText : ℚ → List Char

export RealText (realText)

/-! ## Printing -/

/-- `\u00XX`. -/
def unicodeEscape (n : ℕ) : List Char :=
  "\\u00".toList ++ [(n / 16).digitChar.toUpper, (n % 16).digitChar.toUpper]

/-- A character of a string. -/
def jsonChar (c : Char) : List Char :=
  if c = '"' then ['\\', '"']
  else if c = '\\' then ['\\', '\\']
  else if c = '\x08' then ['\\', 'b']
  else if c = '\x0c' then ['\\', 'f']
  else if c = '\n' then ['\\', 'n']
  else if c = '\r' then ['\\', 'r']
  else if c = '\t' then ['\\', 't']
  else if c.toNat < 32 then unicodeEscape c.toNat
  else [c]

def jsonQuote (text : String) : List Char :=
  '"' :: (text.toList.flatMap jsonChar ++ ['"'])

/-- Parts with a comma and a blank between them. -/
def jsonJoin : List (List Char) → List Char
  | [] => []
  | [part] => part
  | part :: parts => part ++ ',' :: ' ' :: jsonJoin parts

/-- `JSON_SORT_KEYS`, when it is set. -/
def jsonSort (sorts : Bool) (fields : List (String × List Char)) : List (String × List Char) :=
  if sorts then fields.mergeSort fun a b => decide (a.1 ≤ b.1) else fields

def jsonField (field : String × List Char) : List Char :=
  jsonQuote field.1 ++ ':' :: ' ' :: field.2

section Dumps

variable [RealText] (sorts : Bool)

mutual

/-- `json_dumps`. -/
def Json.dumps : Json → List Char
  | .null => "null".toList
  | .bool value => (if value then "true" else "false").toList
  | .integer value => (toString value).toList
  | .real value => realText value
  | .string value => jsonQuote value
  | .array items => '[' :: (jsonJoin (Json.dumpItems items) ++ [']'])
  | .object fields =>
      '\x7b' :: (jsonJoin ((jsonSort sorts (Json.dumpFields fields)).map jsonField) ++ ['\x7d'])

def Json.dumpItems : List Json → List (List Char)
  | [] => []
  | item :: items => Json.dumps item :: Json.dumpItems items

def Json.dumpFields : List (String × Json) → List (String × List Char)
  | [] => []
  | field :: fields => Json.dumpField field :: Json.dumpFields fields

def Json.dumpField : String × Json → String × List Char
  | (key, value) => (key, Json.dumps value)

end

end Dumps

/-! ## Weights -/

section Weights

variable [RealText] (w : Char → ℕ)

/-- What a text weighs. -/
def weight (text : List Char) : ℕ :=
  (text.map w).sum

/-- What a string weighs without its quotes. -/
def stringWeight (text : String) : ℕ :=
  (text.toList.map fun c => weight w (jsonChar c)).sum

/-- What the separators between `n` parts weigh. -/
def commas (n : ℕ) : ℕ :=
  (n - 1) * (w ',' + w ' ')

mutual

/-- What the text of a value weighs, read off the value. -/
def Json.weigh : Json → ℕ
  | .null => weight w "null".toList
  | .bool value => weight w (if value then "true" else "false").toList
  | .integer value => weight w (toString value).toList
  | .real value => weight w (realText value)
  | .string value => 2 * w '"' + stringWeight w value
  | .array items => w '[' + w ']' + commas w items.length + Json.weighItems items
  | .object fields => w '\x7b' + w '\x7d' + commas w fields.length + Json.weighFields fields

def Json.weighItems : List Json → ℕ
  | [] => 0
  | item :: items => Json.weigh item + Json.weighItems items

def Json.weighFields : List (String × Json) → ℕ
  | [] => 0
  | field :: fields => Json.weighField field + Json.weighFields fields

def Json.weighField : String × Json → ℕ
  | (key, value) => 2 * w '"' + stringWeight w key + w ':' + w ' ' + Json.weigh value

end

omit [RealText]

@[simp]
theorem weight_nil : weight w [] = 0 :=
  rfl

@[simp]
theorem weight_cons (c : Char) (text : List Char) : weight w (c :: text) = w c + weight w text :=
  rfl

@[simp]
theorem weight_append (text text' : List Char) :
    weight w (text ++ text') = weight w text + weight w text' := by
  unfold weight
  rw [List.map_append, List.sum_append]

theorem weight_flatMap {α : Type} (f : α → List Char) (items : List α) :
    weight w (items.flatMap f) = (items.map fun a => weight w (f a)).sum := by
  induction items with
  | nil => rfl
  | cons a items ih => rw [List.flatMap_cons, weight_append, ih, List.map_cons, List.sum_cons]

theorem weight_quote (text : String) :
    weight w (jsonQuote text) = 2 * w '"' + stringWeight w text := by
  unfold jsonQuote stringWeight
  rw [weight_cons, weight_append, weight_flatMap, weight_cons, weight_nil]
  omega

theorem weight_join (parts : List (List Char)) :
    weight w (jsonJoin parts) = commas w parts.length + (parts.map (weight w)).sum := by
  induction parts with
  | nil => simp [jsonJoin, commas]
  | cons part parts ih =>
      cases parts with
      | nil => simp [jsonJoin, commas]
      | cons next parts =>
          have more : commas w (part :: next :: parts).length =
              commas w (next :: parts).length + (w ',' + w ' ') :=
            Nat.succ_mul parts.length _
          unfold jsonJoin
          rw [weight_append, weight_cons, weight_cons, ih, more]
          simp only [List.map_cons, List.sum_cons]
          omega

/-- Sorting changes nothing. -/
theorem weight_sort (sorts : Bool) (fields : List (String × List Char)) :
    (((jsonSort sorts fields).map jsonField).map (weight w)).sum =
      ((fields.map jsonField).map (weight w)).sum := by
  unfold jsonSort
  split
  · exact (((List.mergeSort_perm _ _).map jsonField).map (weight w)).sum_eq
  · rfl

theorem length_sort (sorts : Bool) (fields : List (String × List Char)) :
    (jsonSort sorts fields).length = fields.length := by
  unfold jsonSort
  split
  · exact List.length_mergeSort _
  · rfl

end Weights

section Text

variable [RealText] (w : Char → ℕ) (sorts : Bool)

theorem length_dumpItems (items : List Json) :
    (Json.dumpItems sorts items).length = items.length := by
  induction items with
  | nil => rfl
  | cons item items ih => exact congrArg (· + 1) ih

theorem length_dumpFields (fields : List (String × Json)) :
    (Json.dumpFields sorts fields).length = fields.length := by
  induction fields with
  | nil => rfl
  | cons field fields ih => exact congrArg (· + 1) ih

mutual

/-- The text of a value weighs what is read off the value. -/
theorem weight_dumps (value : Json) : weight w (value.dumps sorts) = value.weigh w := by
  cases value with
  | null => rfl
  | bool value => rfl
  | integer value => rfl
  | real value => rfl
  | string value => exact weight_quote w value
  | array items =>
      unfold Json.dumps Json.weigh
      rw [weight_cons, weight_append, weight_join, length_dumpItems, weight_dumpItems items,
        weight_cons, weight_nil]
      omega
  | object fields =>
      unfold Json.dumps Json.weigh
      rw [weight_cons, weight_append, weight_join, List.length_map, length_sort,
        length_dumpFields, weight_sort, weight_dumpFields fields, weight_cons, weight_nil]
      omega

theorem weight_dumpItems (items : List Json) :
    ((Json.dumpItems sorts items).map (weight w)).sum = Json.weighItems w items := by
  cases items with
  | nil => rfl
  | cons item items =>
      unfold Json.dumpItems Json.weighItems
      rw [List.map_cons, List.sum_cons, weight_dumps item, weight_dumpItems items]

theorem weight_dumpFields (fields : List (String × Json)) :
    (((Json.dumpFields sorts fields).map jsonField).map (weight w)).sum =
      Json.weighFields w fields := by
  cases fields with
  | nil => rfl
  | cons field fields =>
      unfold Json.dumpFields Json.weighFields
      rw [List.map_cons, List.map_cons, List.sum_cons, weight_dumpField field,
        weight_dumpFields fields]

theorem weight_dumpField (field : String × Json) :
    weight w (jsonField (Json.dumpField sorts field)) = Json.weighField w field := by
  rcases field with ⟨key, value⟩
  unfold Json.dumpField Json.weighField jsonField
  simp only
  rw [weight_append, weight_quote, weight_cons, weight_cons, weight_dumps value]
  omega

end

end Text

end ViabtcServer.MatchEngine
