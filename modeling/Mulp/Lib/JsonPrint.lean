import Mathlib.Data.List.Infix
import Mulp.Lib.Json

/-! Printing documents of strings, lists and records as JSON, with a quoting of
strings that may be wrong for some of them. -/
namespace Json

/-- What is printed between the quotation marks of a string, and for which strings a
parser reads it back; the others it rejects. -/
structure Quoting where
  quote : List Char → List Char
  ok : List Char → Bool
  stringBody_quote : ∀ s rest, stringBody (quote s ++ '"' :: rest) =
    if ok s then some (Utf16.encode s, rest) else none

inductive Doc where
  | text (s : List Char)
  | list (items : List Doc)
  | record (fields : List (List Char × Doc))

namespace Doc

mutual
def value : Doc → Value
  | text s => .string (Utf16.encode s)
  | list items => .array (values items)
  | record fields => .object (entries fields)

def values : List Doc → List Value
  | [] => []
  | doc :: rest => doc.value :: values rest

def entries : List (List Char × Doc) → List (List UInt16 × Value)
  | [] => []
  | (key, doc) :: rest => (Utf16.encode key, doc.value) :: entries rest
end

variable (q : Quoting)

mutual
/-- Every string of the document is read back. -/
def Ok : Doc → Prop
  | text s => q.ok s = true
  | list items => OkItems items
  | record fields => OkFields fields

def OkItems : List Doc → Prop
  | [] => True
  | doc :: rest => doc.Ok ∧ OkItems rest

def OkFields : List (List Char × Doc) → Prop
  | [] => True
  | (key, doc) :: rest => q.ok key = true ∧ doc.Ok ∧ OkFields rest
end

mutual
/-- The document without white space. -/
def print : Doc → List Char
  | text s => '"' :: (q.quote s ++ ['"'])
  | list items => '[' :: ([','].intercalate (printItems items) ++ [']'])
  | record fields => '\x7b' :: ([','].intercalate (printFields fields) ++ ['\x7d'])

def printItems : List Doc → List (List Char)
  | [] => []
  | doc :: rest => doc.print :: printItems rest

def printFields : List (List Char × Doc) → List (List Char)
  | [] => []
  | (key, doc) :: rest => ('"' :: (q.quote key ++ '"' :: ':' :: doc.print)) :: printFields rest
end

/-! ## First characters -/

variable {q} {doc : Doc} {items : List Doc} {fields : List (List Char × Doc)} {rest : List Char}

theorem print_head (doc : Doc) : ∃ c tail, doc.print q = c :: tail ∧ isWs c = false ∧ c ≠ ']' := by
  cases doc with
  | text s => exact ⟨_, _, rfl, rfl, by decide⟩
  | list items => exact ⟨_, _, rfl, rfl, by decide⟩
  | record fields => exact ⟨_, _, rfl, rfl, by decide⟩

theorem skipWs_cons {c : Char} (h : isWs c = false) (rest : List Char) :
    skipWs (c :: rest) = c :: rest := by
  rw [skipWs, List.dropWhile_cons_of_neg]
  rw [h]
  exact Bool.false_ne_true

theorem skipWs_print (doc : Doc) (rest : List Char) :
    skipWs (doc.print q ++ rest) = doc.print q ++ rest := by
  obtain ⟨c, tail, hprint, hws, -⟩ := print_head (q := q) doc
  rw [hprint]
  exact skipWs_cons hws _

/-- The text of a list that is not empty, up to its end. -/
theorem printItems_cons (doc : Doc) (items : List Doc) (rest : List Char) :
    [','].intercalate (printItems q (doc :: items)) ++ ']' :: rest =
      doc.print q ++ (match items with
        | [] => ']' :: rest
        | next :: items =>
          ',' :: ([','].intercalate (printItems q (next :: items)) ++ ']' :: rest)) := by
  cases items with
  | nil => simp [printItems]
  | cons next items => simp [printItems, List.intercalate]

theorem printFields_cons (key : List Char) (doc : Doc) (fields : List (List Char × Doc))
    (rest : List Char) :
    [','].intercalate (printFields q ((key, doc) :: fields)) ++ '\x7d' :: rest =
      '"' :: (q.quote key ++ '"' :: ':' :: (doc.print q ++ (match fields with
        | [] => '\x7d' :: rest
        | next :: fields =>
            ',' :: ([','].intercalate (printFields q (next :: fields)) ++ '\x7d' :: rest)))) := by
  cases fields with
  | nil => simp [printFields]
  | cons next fields =>
      obtain ⟨nextKey, nextDoc⟩ := next
      simp [printFields, List.intercalate]

/-! ## The parser on a printed document, a step each -/

section Steps

variable {n : Nat} {v : Value} {key s : List Char}

theorem value_text (n : Nat) (s rest : List Char) :
    Json.value (n + 1) ((text s).print q ++ rest) =
      if q.ok s then some ((text s).value, rest) else none := by
  have hprint : (text s).print q ++ rest = '"' :: (q.quote s ++ '"' :: rest) := by simp [print]
  rw [hprint, Json.value]
  dsimp only
  rw [q.stringBody_quote]
  split_ifs <;> rfl

theorem value_list_nil (n : Nat) (rest : List Char) :
    Json.value (n + 1) ((list []).print q ++ rest) = some ((list []).value, rest) := rfl

theorem value_list_cons (n : Nat) (doc : Doc) (items : List Doc) (rest : List Char) :
    Json.value (n + 1) ((list (doc :: items)).print q ++ rest) =
      (elements n ([','].intercalate (printItems q (doc :: items)) ++ ']' :: rest)).map
        fun found => (.array found.1, found.2) := by
  have hprint : (list (doc :: items)).print q ++ rest =
      '[' :: ([','].intercalate (printItems q (doc :: items)) ++ ']' :: rest) := by simp [print]
  -- the text goes on with the first item, not with a bracket
  obtain ⟨c, tail, hhead, hws, hbracket⟩ := print_head (q := q) doc
  rw [hprint, printItems_cons, hhead, List.cons_append, Json.value]
  dsimp only
  rw [skipWs_cons hws]
  split
  · rename_i heq
    exact absurd (List.cons.inj heq).1 hbracket
  · rfl

theorem value_record_nil (n : Nat) (rest : List Char) :
    Json.value (n + 1) ((record []).print q ++ rest) = some ((record []).value, rest) := rfl

theorem value_record_cons (n : Nat) (key : List Char) (doc : Doc) (fields : List (List Char × Doc))
    (rest : List Char) :
    Json.value (n + 1) ((record ((key, doc) :: fields)).print q ++ rest) =
      (members n ([','].intercalate (printFields q ((key, doc) :: fields)) ++ '\x7d' :: rest)).map
        fun found => (.object found.1, found.2) := by
  have hprint : (record ((key, doc) :: fields)).print q ++ rest =
      '\x7b' :: ([','].intercalate (printFields q ((key, doc) :: fields)) ++ '\x7d' :: rest) := by
    simp [print]
  rw [hprint, printFields_cons, Json.value]
  rfl

theorem elements_none {tail : List Char} (h : Json.value n (doc.print q ++ tail) = none) :
    elements (n + 1) (doc.print q ++ tail) = none := by
  rw [elements, skipWs_print, h]
  rfl

theorem elements_last (h : Json.value n (doc.print q ++ ']' :: rest) = some (v, ']' :: rest)) :
    elements (n + 1) (doc.print q ++ ']' :: rest) = some ([v], rest) := by
  rw [elements, skipWs_print, h]
  rfl

theorem elements_more {more : List Char}
    (h : Json.value n (doc.print q ++ ',' :: more) = some (v, ',' :: more)) :
    elements (n + 1) (doc.print q ++ ',' :: more) =
      (elements n more).map fun found => (v :: found.1, found.2) := by
  rw [elements, skipWs_print, h]
  show (elements n more >>= fun found => some (v :: found.1, found.2)) = _
  cases elements n more <;> rfl

theorem members_key (h : q.ok key = false) (tail : List Char) :
    members (n + 1) ('"' :: (q.quote key ++ '"' :: tail)) = none := by
  show (stringBody (q.quote key ++ '"' :: tail) >>= _) = _
  rw [q.stringBody_quote, h]
  rfl

theorem members_none {tail : List Char} (hkey : q.ok key = true)
    (h : Json.value n (doc.print q ++ tail) = none) :
    members (n + 1) ('"' :: (q.quote key ++ '"' :: ':' :: (doc.print q ++ tail))) = none := by
  show (stringBody (q.quote key ++ '"' :: ':' :: (doc.print q ++ tail)) >>= _) = _
  rw [q.stringBody_quote, if_pos hkey]
  show (Json.value n (skipWs (doc.print q ++ tail)) >>= _) = _
  rw [skipWs_print, h]
  rfl

theorem members_last (hkey : q.ok key = true)
    (h : Json.value n (doc.print q ++ '\x7d' :: rest) = some (v, '\x7d' :: rest)) :
    members (n + 1) ('"' :: (q.quote key ++ '"' :: ':' :: (doc.print q ++ '\x7d' :: rest))) =
      some ([(Utf16.encode key, v)], rest) := by
  show (stringBody (q.quote key ++ '"' :: ':' :: (doc.print q ++ '\x7d' :: rest)) >>= _) = _
  rw [q.stringBody_quote, if_pos hkey]
  show (Json.value n (skipWs (doc.print q ++ '\x7d' :: rest)) >>= _) = _
  rw [skipWs_print, h]
  rfl

theorem members_more {more : List Char} (hkey : q.ok key = true)
    (h : Json.value n (doc.print q ++ ',' :: more) = some (v, ',' :: more)) :
    members (n + 1) ('"' :: (q.quote key ++ '"' :: ':' :: (doc.print q ++ ',' :: more))) =
      (members n more).map fun found => ((Utf16.encode key, v) :: found.1, found.2) := by
  show (stringBody (q.quote key ++ '"' :: ':' :: (doc.print q ++ ',' :: more)) >>= _) = _
  rw [q.stringBody_quote, if_pos hkey]
  show (Json.value n (skipWs (doc.print q ++ ',' :: more)) >>= _) = _
  rw [skipWs_print, h]
  show (members n more >>= fun found => some ((Utf16.encode key, v) :: found.1, found.2)) = _
  cases members n more <;> rfl

end Steps

/-! ## What is read -/

/-- The parser fails, or it reads the whole of what was meant. -/
def Reads {α : Type} (found : Option (α × List Char)) (ok : Prop) (value : α) (rest : List Char) :
    Prop :=
  found = none ∨ ok ∧ found = some (value, rest)

theorem Reads.map {α β : Type} {found : Option (α × List Char)} {ok ok' : Prop} {value : α}
    (h : Reads found ok value rest) (hok : ok → ok') (f : α → β) :
    Reads (found.map fun p => (f p.1, p.2)) ok' (f value) rest := by
  rcases h with rfl | ⟨h, rfl⟩
  · exact .inl rfl
  · exact .inr ⟨hok h, rfl⟩

section Reads

variable (q) (n : Nat)

def ReadsDocs : Prop :=
  ∀ (doc : Doc) rest, Reads (Json.value n (doc.print q ++ rest)) (doc.Ok q) doc.value rest

def ReadsItems : Prop :=
  ∀ (doc : Doc) items rest, Reads
    (elements n ([','].intercalate (printItems q (doc :: items)) ++ ']' :: rest))
    (OkItems q (doc :: items)) (values (doc :: items)) rest

def ReadsFields : Prop :=
  ∀ key (doc : Doc) fields rest, Reads
    (members n ([','].intercalate (printFields q ((key, doc) :: fields)) ++ '\x7d' :: rest))
    (OkFields q ((key, doc) :: fields)) (entries ((key, doc) :: fields)) rest

variable {q} {n}

theorem readsDocs_succ (hitems : ReadsItems q n) (hfields : ReadsFields q n) :
    ReadsDocs q (n + 1) := by
  intro doc rest
  match doc with
  | text s =>
      rw [Reads, value_text]
      split_ifs with hs
      · exact .inr ⟨hs, rfl⟩
      · exact .inl rfl
  | list [] => exact .inr ⟨trivial, value_list_nil n rest⟩
  | list (doc :: items) =>
      rw [value_list_cons]
      exact (hitems doc items rest).map id Value.array
  | record [] => exact .inr ⟨trivial, value_record_nil n rest⟩
  | record ((key, doc) :: fields) =>
      rw [value_record_cons]
      exact (hfields key doc fields rest).map id Value.object

theorem readsItems_succ (hdocs : ReadsDocs q n) (hitems : ReadsItems q n) :
    ReadsItems q (n + 1) := by
  intro doc items rest
  rw [printItems_cons]
  match items with
  | [] =>
      rcases hdocs doc (']' :: rest) with hnone | ⟨hok, hsome⟩
      · exact .inl (elements_none hnone)
      · exact .inr ⟨⟨hok, trivial⟩, elements_last hsome⟩
  | next :: items =>
      dsimp only
      rcases hdocs doc
        (',' :: ([','].intercalate (printItems q (next :: items)) ++ ']' :: rest)) with
        hnone | ⟨hok, hsome⟩
      · exact .inl (elements_none hnone)
      · rw [elements_more hsome]
        exact (hitems next items rest).map (fun hrest => ⟨hok, hrest⟩) (doc.value :: ·)

theorem readsFields_succ (hdocs : ReadsDocs q n) (hfields : ReadsFields q n) :
    ReadsFields q (n + 1) := by
  intro key doc fields rest
  rw [printFields_cons]
  cases hkey : q.ok key with
  | false => exact .inl (members_key hkey _)
  | true =>
      match fields with
      | [] =>
          rcases hdocs doc ('\x7d' :: rest) with hnone | ⟨hok, hsome⟩
          · exact .inl (members_none hkey hnone)
          · exact .inr ⟨⟨hkey, hok, trivial⟩, members_last hkey hsome⟩
      | (nextKey, next) :: fields =>
          dsimp only
          rcases hdocs doc (',' :: ([','].intercalate (printFields q ((nextKey, next) :: fields)) ++
              '\x7d' :: rest)) with hnone | ⟨hok, hsome⟩
          · exact .inl (members_none hkey hnone)
          · rw [members_more hkey hsome]
            exact (hfields nextKey next fields rest).map (fun hrest => ⟨hkey, hok, hrest⟩)
              ((Utf16.encode key, doc.value) :: ·)

/-- However deep the parser may go, it reads a printed document as that document, or
not at all. -/
theorem reads_print (n : Nat) : ReadsDocs q n ∧ ReadsItems q n ∧ ReadsFields q n := by
  induction n with
  | zero => exact ⟨fun _ _ => .inl rfl, fun _ _ _ => .inl rfl, fun _ _ _ _ => .inl rfl⟩
  | succ n ih =>
      obtain ⟨hdocs, hitems, hfields⟩ := ih
      exact ⟨readsDocs_succ hitems hfields, readsItems_succ hdocs hitems,
        readsFields_succ hdocs hfields⟩

end Reads

mutual
/-- A document with all its strings in order is read by a parser that may go deep
enough. -/
theorem value_print (doc : Doc) (h : doc.Ok q) (rest : List Char) :
    ∃ n₀, ∀ n, n₀ < n → Json.value n (doc.print q ++ rest) = some (doc.value, rest) := by
  match doc with
  | text s =>
      refine ⟨0, fun n hn => ?_⟩
      obtain ⟨m, rfl⟩ : ∃ m, n = m + 1 := ⟨n - 1, by omega⟩
      exact (value_text m s rest).trans (if_pos h)
  | list [] =>
      refine ⟨0, fun n hn => ?_⟩
      obtain ⟨m, rfl⟩ : ∃ m, n = m + 1 := ⟨n - 1, by omega⟩
      exact value_list_nil m rest
  | list (doc :: items) =>
      obtain ⟨n₀, hn₀⟩ := elements_print (doc :: items) (List.cons_ne_nil _ _) h rest
      refine ⟨n₀ + 1, fun n hn => ?_⟩
      obtain ⟨m, rfl⟩ : ∃ m, n = m + 1 := ⟨n - 1, by omega⟩
      rw [value_list_cons, hn₀ m (by omega)]
      rfl
  | record [] =>
      refine ⟨0, fun n hn => ?_⟩
      obtain ⟨m, rfl⟩ : ∃ m, n = m + 1 := ⟨n - 1, by omega⟩
      exact value_record_nil m rest
  | record ((key, doc) :: fields) =>
      obtain ⟨n₀, hn₀⟩ := members_print ((key, doc) :: fields) (List.cons_ne_nil _ _) h rest
      refine ⟨n₀ + 1, fun n hn => ?_⟩
      obtain ⟨m, rfl⟩ : ∃ m, n = m + 1 := ⟨n - 1, by omega⟩
      rw [value_record_cons, hn₀ m (by omega)]
      rfl

theorem elements_print (items : List Doc) (hne : items ≠ []) (h : OkItems q items)
    (rest : List Char) :
    ∃ n₀, ∀ n, n₀ < n → elements n ([','].intercalate (printItems q items) ++ ']' :: rest) =
      some (values items, rest) := by
  match items with
  | [] => exact absurd rfl hne
  | [doc] =>
      obtain ⟨n₀, hn₀⟩ := value_print doc h.1 (']' :: rest)
      refine ⟨n₀ + 1, fun n hn => ?_⟩
      obtain ⟨m, rfl⟩ : ∃ m, n = m + 1 := ⟨n - 1, by omega⟩
      rw [printItems_cons]
      exact elements_last (hn₀ m (by omega))
  | doc :: next :: items =>
      obtain ⟨n₁, hn₁⟩ := value_print doc h.1
        (',' :: ([','].intercalate (printItems q (next :: items)) ++ ']' :: rest))
      obtain ⟨n₂, hn₂⟩ := elements_print (next :: items) (List.cons_ne_nil _ _) h.2 rest
      refine ⟨max n₁ n₂ + 1, fun n hn => ?_⟩
      obtain ⟨m, rfl⟩ : ∃ m, n = m + 1 := ⟨n - 1, by omega⟩
      rw [printItems_cons]
      dsimp only
      rw [elements_more (hn₁ m (by omega)), hn₂ m (by omega)]
      rfl

theorem members_print (fields : List (List Char × Doc)) (hne : fields ≠ []) (h : OkFields q fields)
    (rest : List Char) :
    ∃ n₀, ∀ n, n₀ < n → members n ([','].intercalate (printFields q fields) ++ '\x7d' :: rest) =
      some (entries fields, rest) := by
  match fields with
  | [] => exact absurd rfl hne
  | [(key, doc)] =>
      obtain ⟨n₀, hn₀⟩ := value_print doc h.2.1 ('\x7d' :: rest)
      refine ⟨n₀ + 1, fun n hn => ?_⟩
      obtain ⟨m, rfl⟩ : ∃ m, n = m + 1 := ⟨n - 1, by omega⟩
      rw [printFields_cons]
      exact members_last h.1 (hn₀ m (by omega))
  | (key, doc) :: next :: fields =>
      obtain ⟨n₁, hn₁⟩ := value_print doc h.2.1
        (',' :: ([','].intercalate (printFields q (next :: fields)) ++ '\x7d' :: rest))
      obtain ⟨n₂, hn₂⟩ := members_print (next :: fields) (List.cons_ne_nil _ _) h.2.2 rest
      refine ⟨max n₁ n₂ + 1, fun n hn => ?_⟩
      obtain ⟨m, rfl⟩ : ∃ m, n = m + 1 := ⟨n - 1, by omega⟩
      rw [printFields_cons]
      dsimp only
      rw [members_more h.1 (hn₁ m (by omega)), hn₂ m (by omega)]
      rfl
end

/-- A printed document is valid if its strings are in order, and denotes itself only. -/
theorem denotes_print_iff {text : String} (htext : text.toList = doc.print q) (v : Value) :
    Denotes text v ↔ doc.Ok q ∧ v = doc.value := by
  have hskip : skipWs (doc.print q) = doc.print q := by
    have hprint := skipWs_print (q := q) doc []
    rwa [List.append_nil] at hprint
  rw [Denotes, htext, hskip]
  constructor
  · rintro ⟨n, rest, hvalue, -⟩
    have hreads := (reads_print (q := q) n).1 doc []
    rw [List.append_nil] at hreads
    rcases hreads with hnone | ⟨hok, hsome⟩
    · rw [hnone] at hvalue
      cases hvalue
    · rw [hsome] at hvalue
      cases hvalue
      exact ⟨hok, rfl⟩
  · rintro ⟨hok, rfl⟩
    obtain ⟨n₀, hn₀⟩ := value_print doc hok []
    have hread := hn₀ (n₀ + 1) (Nat.lt_succ_self n₀)
    rw [List.append_nil] at hread
    exact ⟨n₀ + 1, [], hread, rfl⟩

end Doc

end Json
