import Mulp.Cli.Config

/-! What the parser reads of a source in the language (`cli/config.mbt`), in terms of its
characters. The loops look at slices, and the first pair that they come to aborts them. -/
namespace Mulp.Cli

open Mulp.Core Mulp.Text

/-! ## `find_substring` -/

section Find

variable {source needle : String} {index n i : Nat}

/-- The needle stands at the index, in characters. -/
def Stands (source needle : String) (i : Nat) : Prop := needle.toList <+: source.toList.drop i

instance (source needle : String) (i : Nat) : Decidable (Stands source needle i) :=
  inferInstanceAs (Decidable (_ <+: _))

/-- A slice that is not the needle. -/
def Differs (source needle : String) (j : Nat) : Prop :=
  ∃ part, slice source j (j + unitLength needle) = some part ∧ part ≠ needle

theorem findSubstringFrom_found (hfirst : ∀ j, index ≤ j → j < i → Differs source needle j)
    (hfound : slice source i (i + unitLength needle) = some needle)
    (hindex : index ≤ i) (hi : i < index + n) :
    findSubstringFrom source needle index n = some (i : Int) := by
  induction n generalizing index with
  | zero => omega
  | succ n ih =>
      rw [findSubstringFrom]
      rcases Nat.eq_or_lt_of_le hindex with rfl | hlt
      · rw [hfound]
        exact if_pos rfl
      · obtain ⟨part, hpart, hne⟩ := hfirst index (Nat.le_refl _) hlt
        rw [hpart]
        exact (if_neg hne).trans (ih (fun j hj => hfirst j (by omega)) hlt (by omega))

/-- How the loop ends. -/
theorem findSubstringFrom_cases {r : Int} (h : findSubstringFrom source needle index n = some r) :
    (r = -1 ∧ ∀ j, index ≤ j → j < index + n → Differs source needle j) ∨
      ∃ i : Nat, r = i ∧ index ≤ i ∧ slice source i (i + unitLength needle) = some needle ∧
        ∀ j, index ≤ j → j < i → Differs source needle j := by
  induction n generalizing index with
  | zero => exact .inl ⟨(Option.some.inj h).symm, fun j hj hlt => by omega⟩
  | succ n ih =>
      obtain ⟨part, hpart, h⟩ := Option.bind_eq_some_iff.mp h
      split_ifs at h with heq
      · rw [heq] at hpart
        exact .inr ⟨index, (Option.some.inj h).symm, Nat.le_refl _, hpart,
          fun j hj hlt => by omega⟩
      · have hindex : Differs source needle index := ⟨part, hpart, heq⟩
        have hstep {k : Nat} (hrest : ∀ j, index + 1 ≤ j → j < k → Differs source needle j)
            (j : Nat) (hj : index ≤ j) (hlt : j < k) : Differs source needle j := by
          rcases Nat.eq_or_lt_of_le hj with rfl | hgt
          · exact hindex
          · exact hrest j hgt hlt
        rcases ih h with ⟨rfl, hrest⟩ | ⟨i, rfl, hi, hfound, hrest⟩
        · exact .inl ⟨rfl, hstep fun j hj hlt => hrest j hj (by omega)⟩
        · exact .inr ⟨i, rfl, by omega, hfound, hstep hrest⟩

/-- A text before which every index is a boundary has no pairs. -/
theorem isBmp_of_boundaries {before rest : String}
    (h : ∀ j < unitLength before, isBoundary (units (before ++ rest)) j = true) : IsBmp before := by
  rw [← plain_units_iff]
  intro u hu hlow
  obtain ⟨j, hj, rfl⟩ := List.mem_iff_getElem.mp hu
  have hboundary := h j hj
  rw [isBoundary, units_append, List.getElem?_append_left hj,
    List.getElem?_eq_getElem hj] at hboundary
  exact of_decide_eq_true hboundary hlow

theorem boundaries_of_slice {part : String} {i j : Nat} (h : slice source i j = some part) :
    isBoundary (units source) i = true ∧ isBoundary (units source) j = true := by
  obtain ⟨_, hsub, -⟩ := Option.map_eq_some_iff.mp h
  exact ⟨(sub_eq_some_iff.mp hsub).1.2.2.1, (sub_eq_some_iff.mp hsub).1.2.2.2⟩

/-- Where the needle stands, before the first pair, the slice is the needle. -/
theorem slice_of_stands (h : Stands source needle i)
    (hbefore : IsBmp (String.ofList (source.toList.take i))) (hi : i ≤ source.toList.length) :
    slice source i (i + unitLength needle) = some needle := by
  obtain ⟨after, hafter⟩ := h
  have hsplit : source.toList.take i ++ needle.toList ++ after = source.toList := by
    rw [List.append_assoc, hafter, List.take_append_drop]
  refine slice_eq_some_iff.mpr ⟨.ofList (source.toList.take i), .ofList after, ?_, ?_, ?_⟩
  · rw [← String.toList_inj, String.toList_append, String.toList_append, String.toList_ofList,
      String.toList_ofList, hsplit]
  · rw [hbefore.unitLength, String.toList_ofList, List.length_take_of_le hi]
  · rw [unitLength_append, hbefore.unitLength, String.toList_ofList, List.length_take_of_le hi]

/-- What a slice finds stands there. -/
theorem stands_of_slice {before after : String} (h : source = before ++ needle ++ after) :
    Stands source needle before.toList.length := by
  refine ⟨after.toList, ?_⟩
  rw [h, String.toList_append, String.toList_append, List.append_assoc, List.drop_left]

theorem Stands.lt_length (h : Stands source needle i) (hne : needle ≠ "") :
    i < source.toList.length := by
  by_contra hge
  rw [Stands, List.drop_eq_nil_of_le (by omega), List.prefix_nil] at h
  exact hne (String.toList_eq_nil_iff.mp h)

theorem isBmp_take {j : Nat} (h : IsBmp (String.ofList (source.toList.take i))) (hj : j ≤ i) :
    IsBmp (String.ofList (source.toList.take j)) := by
  refine h.of_subset ?_
  rw [String.toList_ofList, String.toList_ofList]
  exact List.take_subset_take_left _ hj

/-- The needle does not stand where the slice differs. -/
theorem Differs.not_stands (h : Differs source needle i) (hne : needle ≠ "")
    (hbefore : IsBmp (String.ofList (source.toList.take i))) : ¬ Stands source needle i := by
  intro hstands
  obtain ⟨part, hpart, hdiffers⟩ := h
  rw [slice_of_stands hstands hbefore (Nat.le_of_lt (hstands.lt_length hne))] at hpart
  exact hdiffers (Option.some.inj hpart).symm

/-- A text without pairs is its own beginning. -/
theorem take_of_isBmp {before rest : String} (h : IsBmp before) :
    (before ++ rest).toList.take (unitLength before) = before.toList := by
  rw [h.unitLength, String.toList_append, List.take_left]

/-- The needle is found where it stands first, behind characters without pairs. -/
theorem findSubstring_eq_iff (hneedle : IsBmp needle) (hne : needle ≠ "") :
    findSubstring source needle = some (i : Int) ↔
      IsBmp (String.ofList (source.toList.take i)) ∧ Stands source needle i ∧
        ∀ j < i, ¬ Stands source needle j := by
  unfold findSubstring
  rw [if_neg hne]
  constructor
  · intro h
    split_ifs at h with hlong
    · have hminus := Option.some.inj h
      omega
    · rcases findSubstringFrom_cases h with ⟨hminus, -⟩ | ⟨k, hk, -, hfound, hfirst⟩
      · omega
      · obtain rfl : i = k := by omega
        obtain ⟨before, after, hsource, hlength, -⟩ := slice_eq_some_iff.mp hfound
        have hbefore : IsBmp before := by
          refine @isBmp_of_boundaries before (needle ++ after) fun j hj => ?_
          obtain ⟨part, hpart, -⟩ := hfirst j (Nat.zero_le j) (hlength ▸ hj)
          rw [← String.append_assoc, ← hsource]
          exact (boundaries_of_slice hpart).1
        have htake : IsBmp (String.ofList (source.toList.take i)) := by
          rw [hsource, ← hlength, String.append_assoc, take_of_isBmp hbefore, String.ofList_toList]
          exact hbefore
        refine ⟨htake, ?_, fun j hj => ?_⟩
        · rw [← hlength, hbefore.unitLength]
          exact stands_of_slice hsource
        · exact (hfirst j (Nat.zero_le j) hj).not_stands hne (isBmp_take htake (Nat.le_of_lt hj))
  · rintro ⟨hbefore, hstands, hfirst⟩
    have hfound := slice_of_stands hstands hbefore (Nat.le_of_lt (hstands.lt_length hne))
    have hle := le_unitLength hfound
    rw [if_neg (by omega)]
    refine findSubstringFrom_found (fun j _ hj => ?_) hfound (Nat.zero_le i) (by omega)
    -- up to the end of the needle there are no pairs
    obtain ⟨after, hafter⟩ := hstands
    have hsource : source.toList = source.toList.take i ++ needle.toList ++ after := by
      rw [List.append_assoc, hafter, List.take_append_drop]
    have hlength : j + unitLength needle ≤ (source.toList.take i ++ needle.toList).length := by
      rw [List.length_append, hneedle.unitLength,
        List.length_take_of_le (Nat.le_of_lt (Stands.lt_length ⟨after, hafter⟩ hne))]
      omega
    have hfront : IsBmp (String.ofList (source.toList.take (j + unitLength needle))) := by
      rw [hsource, List.take_append_of_le_length hlength]
      intro c hc
      rw [String.toList_ofList] at hc
      rcases List.mem_append.mp (List.mem_of_mem_take hc) with hc | hc
      · exact hbefore c (by rwa [String.toList_ofList])
      · exact hneedle c hc
    have hbound : j + unitLength needle ≤ source.toList.length := by
      rw [hsource, List.length_append]
      omega
    refine ⟨_, slice_take hfront (Nat.le_add_right _ _) hbound, fun heq => hfirst j hj ?_⟩
    rw [Stands, ← heq, String.toList_ofList, List.drop_take, Nat.add_sub_cancel_left]
    exact List.take_prefix _ _

/-- A search in vain has looked at all of a text that is not too short. -/
theorem isBmp_of_absent (hlength : 2 * unitLength needle ≤ unitLength source + 1)
    (hne : needle ≠ "") {r : Int} (h : findSubstring source needle = some r) (hr : r < 0) :
    IsBmp source ∧ ∀ i, ¬ Stands source needle i := by
  have hpos : 0 < unitLength needle :=
    Nat.pos_of_ne_zero fun hzero => hne (unitLength_eq_zero.mp hzero)
  unfold findSubstring at h
  rw [if_neg hne, if_neg (by omega)] at h
  rcases findSubstringFrom_cases h with ⟨-, hall⟩ | ⟨i, hi, -⟩
  · have hsource : IsBmp source := by
      refine @isBmp_of_boundaries source "" fun j hj => ?_
      rw [String.append_empty]
      -- the index is where a slice begins or where one ends
      by_cases hstart : j < unitLength source - unitLength needle + 1
      · obtain ⟨part, hpart, -⟩ := hall j (Nat.zero_le j) (by omega)
        exact (boundaries_of_slice hpart).1
      · obtain ⟨part, hpart, -⟩ := hall (j - unitLength needle) (Nat.zero_le _) (by omega)
        have hend := (boundaries_of_slice hpart).2
        rwa [Nat.sub_add_cancel (by omega)] at hend
    refine ⟨hsource, fun i hstands => ?_⟩
    have hbefore : IsBmp (String.ofList (source.toList.take i)) := hsource.of_subset (by
      rw [String.toList_ofList]
      exact List.take_subset i _)
    have hle := le_unitLength
      (slice_of_stands hstands hbefore (Nat.le_of_lt (hstands.lt_length hne)))
    exact (hall i (Nat.zero_le i) (by omega)).not_stands hne hbefore hstands
  · omega

end Find

/-! ## Quotes -/

section Quotes

/-- Where the first quote is among the characters, unless a pair comes first. -/
def quoteIn : List Char → Option (Option Nat)
  | [] => some none
  | c :: rest =>
      if c = '"' then some (some 0)
      else if c.toNat ≤ 0xFFFF then (quoteIn rest).map (Option.map (· + 1))
      else none

variable {chars front rest : List Char} {q : Nat}

theorem quoteIn_cons {c : Char} (hc : c ≠ '"') (hbmp : c.toNat ≤ 0xFFFF) (rest : List Char) :
    quoteIn (c :: rest) = (quoteIn rest).map (Option.map (· + 1)) := by
  rw [quoteIn, if_neg hc, if_pos hbmp]

theorem quoteIn_found_iff : quoteIn chars = some (some q) ↔
    ∃ middle after, chars = middle ++ '"' :: after ∧ middle.length = q ∧ '"' ∉ middle ∧
      IsBmp (String.ofList middle) := by
  induction chars generalizing q with
  | nil =>
      refine iff_of_false nofun ?_
      rintro ⟨middle, after, h, -⟩
      cases middle <;> cases h
  | cons c rest ih =>
      by_cases hc : c = '"'
      · subst hc
        constructor
        · intro h
          rw [quoteIn, if_pos rfl] at h
          obtain rfl := Option.some.inj (Option.some.inj h)
          exact ⟨[], rest, rfl, rfl, List.not_mem_nil, nofun⟩
        · rintro ⟨middle, after, hsplit, rfl, hquote, -⟩
          cases middle with
          | nil => rfl
          | cons d middle =>
              obtain ⟨rfl, -⟩ := List.cons.inj hsplit
              exact absurd List.mem_cons_self hquote
      · by_cases hbmp : c.toNat ≤ 0xFFFF
        · rw [quoteIn_cons hc hbmp]
          constructor
          · intro h
            obtain ⟨found, hfound, hmap⟩ := Option.map_eq_some_iff.mp h
            obtain ⟨k, rfl, rfl⟩ := Option.map_eq_some_iff.mp hmap
            obtain ⟨middle, after, rfl, rfl, hquote, hmiddle⟩ := ih.mp hfound
            refine ⟨c :: middle, after, rfl, rfl, ?_, ?_⟩
            · rw [List.mem_cons, not_or]
              exact ⟨Ne.symm hc, hquote⟩
            · intro d hd
              rw [String.toList_ofList] at hd
              rcases List.mem_cons.mp hd with rfl | hd
              · exact hbmp
              · exact hmiddle d (by rwa [String.toList_ofList])
          · rintro ⟨middle, after, hsplit, rfl, hquote, hmiddle⟩
            cases middle with
            | nil => exact absurd (List.cons.inj hsplit).1 hc
            | cons d middle =>
                obtain ⟨rfl, rfl⟩ := List.cons.inj hsplit
                have hrest := ih.mpr ⟨middle, after, rfl, rfl,
                  fun h => hquote (List.mem_cons_of_mem _ h), hmiddle.of_subset (by simp)⟩
                rw [hrest]
                rfl
        · refine iff_of_false ?_ ?_
          · rw [quoteIn, if_neg hc, if_neg hbmp]
            nofun
          · rintro ⟨middle, after, hsplit, rfl, -, hmiddle⟩
            cases middle with
            | nil => exact hc (List.cons.inj hsplit).1
            | cons d middle =>
                obtain ⟨rfl, -⟩ := List.cons.inj hsplit
                exact hbmp (hmiddle c (by simp))

theorem quoteIn_none (h : quoteIn chars = some none) :
    '"' ∉ chars ∧ IsBmp (String.ofList chars) := by
  induction chars with
  | nil => exact ⟨List.not_mem_nil, nofun⟩
  | cons c rest ih =>
      rw [quoteIn] at h
      split_ifs at h with hc hbmp
      · cases Option.some.inj h
      · obtain ⟨found, hfound, hmap⟩ := Option.map_eq_some_iff.mp h
        obtain rfl := Option.map_eq_none_iff.mp hmap
        obtain ⟨hquote, hrest⟩ := ih hfound
        refine ⟨?_, ?_⟩
        · rw [List.mem_cons, not_or]
          exact ⟨Ne.symm hc, hquote⟩
        · intro d hd
          rw [String.toList_ofList] at hd
          rcases List.mem_cons.mp hd with rfl | hd
          · exact hbmp
          · exact hrest d (by rwa [String.toList_ofList])

/-- What is left of the units behind characters without pairs. -/
theorem unitLength_behind {source : String} (hsource : source.toList = front ++ rest)
    (hfront : IsBmp (String.ofList front)) :
    unitLength source = front.length + unitLength (String.ofList rest) := by
  have hstring : source = String.ofList front ++ String.ofList rest := by
    rw [← String.ofList_append, ← hsource, String.ofList_toList]
  rw [hstring, unitLength_append, hfront.unitLength, String.toList_ofList]

theorem isBmp_concat {c : Char} (hfront : IsBmp (String.ofList front)) (hc : c.toNat ≤ 0xFFFF) :
    IsBmp (String.ofList (front ++ [c])) := by
  rw [String.ofList_append]
  refine hfront.append fun d hd => ?_
  rw [String.toList_ofList, List.mem_singleton] at hd
  rwa [hd]

/-- The loop behind characters without pairs. -/
theorem findQuoteFrom_eq {source : String} (hsource : source.toList = front ++ rest)
    (hfront : IsBmp (String.ofList front)) :
    findQuoteFrom source front.length (unitLength source - front.length) =
      (quoteIn rest).map (Option.map (front.length + ·)) := by
  induction rest generalizing front with
  | nil =>
      rw [unitLength_behind hsource hfront, Nat.add_sub_cancel_left]
      rfl
  | cons c rest ih =>
      have htake : source.toList.take front.length = front := by rw [hsource, List.take_left]
      have hlt : front.length < source.toList.length := by
        rw [hsource, List.length_append, List.length_cons]
        omega
      have hget : source.toList[front.length] = c := by simp [hsource]
      by_cases hbmp : c.toNat ≤ 0xFFFF
      · have hnext := isBmp_concat hfront hbmp
        have hsource' : source.toList = front ++ [c] ++ rest := by
          rw [hsource, List.append_assoc, List.singleton_append]
        have htake' : source.toList.take (front.length + 1) = front ++ [c] := by
          rw [← List.take_append_getElem hlt, htake, hget]
        have hslice : slice source front.length (front.length + 1) = some (String.ofList [c]) := by
          rw [slice_take (by rwa [htake']) (Nat.le_succ _) hlt, htake', List.drop_left]
        have hturns : unitLength source - front.length =
            unitLength source - (front ++ [c]).length + 1 := by
          have hunits := unitLength_behind hsource' hnext
          rw [List.length_append, List.length_singleton] at hunits ⊢
          omega
        rw [hturns, findQuoteFrom, hslice, Option.bind_eq_bind, Option.bind_some]
        by_cases hc : c = '"'
        · subst hc
          rfl
        · have hquote : String.ofList [c] ≠ "\"" := by
            rw [ne_eq, ← String.toList_inj, String.toList_ofList]
            simpa using hc
          have hlength : (front ++ [c]).length = front.length + 1 := by
            rw [List.length_append, List.length_singleton]
          have hih := ih hsource' hnext
          rw [hlength] at hih ⊢
          rw [if_neg hquote, hih, quoteIn_cons hc hbmp, Option.map_map]
          congr 1
          funext found
          cases found with
          | none => rfl
          | some k =>
              have hindex : front.length + 1 + k = front.length + (k + 1) := by omega
              exact congrArg some hindex
      · have hslice : slice source front.length (front.length + 1) = none :=
          slice_pair (by rwa [htake]) hlt (by rwa [hget])
        have hc : c ≠ '"' := by
          rintro rfl
          exact hbmp (by decide)
        have hturns : ∃ n, unitLength source - front.length = n + 1 := by
          refine Nat.exists_eq_succ_of_ne_zero fun hzero => ?_
          have hunits := unitLength_behind hsource hfront
          have hlength : unitLength (String.ofList (c :: rest)) = 0 := by omega
          have hnil := unitLength_eq_zero.mp hlength
          rw [← String.toList_inj, String.toList_ofList] at hnil
          cases hnil
        obtain ⟨n, hn⟩ := hturns
        rw [hn, findQuoteFrom, hslice, quoteIn, if_neg hc, if_neg hbmp]
        rfl

/-! ## `quoted_return_after` -/

/-- The first quoted string behind the place where the marker stands first, and no pair up to its
end: the search looks at each index in between with a slice. -/
def Quoted (source marker value : String) : Prop :=
  ∃ before middle after,
    source.toList = before ++ (middle ++ '"' :: (value.toList ++ '"' :: after)) ∧
    (∀ i < before.length, ¬ Stands source marker i) ∧ marker.toList <+: middle ∧
    '"' ∉ middle ∧ '"' ∉ value.toList ∧
    IsBmp (String.ofList (before ++ (middle ++ '"' :: value.toList)))

variable {source marker value : String} {before : List Char}

/-- What the loops come to, behind the place of the marker. -/
theorem quotedReturnAfter_found (hsource : source.toList = before ++ rest)
    (hbefore : IsBmp (String.ofList before))
    (hfound : findSubstring source marker = some (before.length : Int)) :
    quotedReturnAfter source marker = (quoteIn rest).bind fun first =>
      match first with
      | none => some (.error (.configError ("missing quoted return for " ++ marker)))
      | some q =>
          (quoteIn (rest.drop (q + 1))).map fun last =>
            match last with
            | none => .error (.configError ("missing quoted return for " ++ marker))
            | some k => .ok (String.ofList ((rest.drop (q + 1)).take k)) := by
  rw [quotedReturnAfter, hfound, Option.bind_eq_bind, Option.bind_some, if_neg (by omega),
    Int.toNat_natCast, findQuoteFrom_eq hsource hbefore]
  cases hfirst : quoteIn rest with
  | none => rfl
  | some first =>
      cases first with
      | none => rfl
      | some q =>
          obtain ⟨middle, after, rfl, rfl, -, hmiddle⟩ := quoteIn_found_iff.mp hfirst
          have hdrop : (middle ++ '"' :: after).drop (middle.length + 1) = after := by simp
          have hfront : IsBmp (String.ofList (before ++ (middle ++ ['"']))) := by
            rw [← List.append_assoc]
            have happend := hbefore.append hmiddle
            rw [← String.ofList_append] at happend
            exact isBmp_concat happend (by decide)
          have hsource' : source.toList = before ++ (middle ++ ['"']) ++ after := by
            simpa using hsource
          have hlength : (before ++ (middle ++ ['"'])).length =
              before.length + middle.length + 1 := by simp [Nat.add_assoc]
          have hlast := findQuoteFrom_eq hsource' hfront
          rw [hlength] at hlast
          simp only [Option.map_some, Option.bind_eq_bind, Option.bind_some, hdrop, hlast]
          cases hsecond : quoteIn after with
          | none => rfl
          | some last =>
              cases last with
              | none => rfl
              | some k =>
                  obtain ⟨text, rest, rfl, rfl, -, htext⟩ := quoteIn_found_iff.mp hsecond
                  have htake : (text ++ '"' :: rest).take text.length = text := List.take_left
                  have hslice : slice source (before.length + middle.length + 1)
                      (before.length + middle.length + 1 + text.length) =
                      some (String.ofList text) := by
                    refine slice_eq_some_iff.mpr ⟨.ofList (before ++ (middle ++ ['"'])),
                      .ofList ('"' :: rest), ?_, ?_, ?_⟩
                    · rw [← String.toList_inj, hsource']
                      simp
                    · rw [hfront.unitLength, String.toList_ofList, hlength]
                    · rw [unitLength_append, hfront.unitLength, htext.unitLength,
                        String.toList_ofList, String.toList_ofList, hlength]
                  simp only [Option.map_some, Option.bind_some, hslice, htake]

theorem prefix_of_not_mem {α : Type} {l m t : List α} {a : α} (h : l <+: m ++ a :: t) (ha : a ∉ l) :
    l <+: m := by
  rcases List.prefix_or_prefix_of_prefix h (List.prefix_append m (a :: t)) with hle | ⟨more, rfl⟩
  · exact hle
  · rw [List.prefix_append_right_inj] at h
    cases more with
    | nil => simp
    | cons b more =>
        obtain ⟨rfl, -⟩ := List.cons_prefix_cons.mp h
        exact absurd (List.mem_append_right m List.mem_cons_self) ha

variable (hmarker : IsBmp marker) (hne : marker ≠ "") (hquote : '"' ∉ marker.toList)
include hmarker hne hquote

theorem quotedReturnAfter_ok_iff : quotedReturnAfter source marker = some (.ok value) ↔
    Quoted source marker value := by
  constructor
  · intro h
    obtain ⟨start, hstart, hrest⟩ := Option.bind_eq_some_iff.mp h
    split_ifs at hrest with hneg
    · cases Option.some.inj hrest
    · obtain ⟨i, rfl⟩ := Int.eq_ofNat_of_zero_le (Int.not_lt.mp hneg)
      obtain ⟨hbefore, hstands, hfirst⟩ := (findSubstring_eq_iff hmarker hne).mp hstart
      have hlength : (source.toList.take i).length = i :=
        List.length_take_of_le (Nat.le_of_lt (hstands.lt_length hne))
      have hsource : source.toList = source.toList.take i ++ source.toList.drop i :=
        (List.take_append_drop i _).symm
      rw [quotedReturnAfter_found hsource hbefore (by rwa [hlength])] at h
      obtain ⟨first, hquoteIn, h⟩ := Option.bind_eq_some_iff.mp h
      cases first with
      | none => cases Option.some.inj h
      | some q =>
          obtain ⟨last, hlast, h⟩ := Option.map_eq_some_iff.mp h
          cases last with
          | none => cases h
          | some k =>
              obtain ⟨middle, after, hmiddle, rfl, hno, hbmp⟩ := quoteIn_found_iff.mp hquoteIn
              have hdrop : (source.toList.drop i).drop (middle.length + 1) = after := by
                simp [hmiddle]
              rw [hdrop] at hlast h
              obtain ⟨text, rest, rfl, rfl, hno', hbmp'⟩ := quoteIn_found_iff.mp hlast
              dsimp only at h
              rw [List.take_left] at h
              obtain rfl := Except.ok.inj h
              rw [hmiddle] at hsource
              refine ⟨source.toList.take i, middle, rest, ?_, ?_, ?_, hno, ?_, ?_⟩
              · rwa [String.toList_ofList]
              · rwa [hlength]
              · rw [Stands, hmiddle] at hstands
                exact prefix_of_not_mem hstands hquote
              · rwa [String.toList_ofList]
              · rw [String.toList_ofList, List.append_cons, ← List.append_assoc,
                  ← List.append_assoc, String.ofList_append]
                refine IsBmp.append (isBmp_concat ?_ (by decide)) hbmp'
                rw [String.ofList_append]
                exact hbefore.append hbmp
  · rintro ⟨before, middle, after, hsource, hfirst, hprefix, hno, hno', hbmp⟩
    have hsubset {part : List Char} (h : part ⊆ before ++ (middle ++ '"' :: value.toList)) :
        IsBmp (String.ofList part) := hbmp.of_subset (by simpa only [String.toList_ofList] using h)
    have hbefore : IsBmp (String.ofList before) := hsubset (List.subset_append_left _ _)
    have htake : source.toList.take before.length = before := by rw [hsource, List.take_left]
    have hstands : Stands source marker before.length := by
      rw [Stands, hsource, List.drop_left]
      exact hprefix.trans (List.prefix_append _ _)
    have hfound := (findSubstring_eq_iff hmarker hne).mpr ⟨by rwa [htake], hstands, hfirst⟩
    have hmiddle : quoteIn (middle ++ '"' :: (value.toList ++ '"' :: after)) =
        some (some middle.length) :=
      quoteIn_found_iff.mpr ⟨middle, _, rfl, rfl, hno, hsubset fun c hc => by simp [hc]⟩
    have hvalue : quoteIn (value.toList ++ '"' :: after) = some (some value.toList.length) :=
      quoteIn_found_iff.mpr ⟨value.toList, after, rfl, rfl, hno', hsubset fun c hc => by simp [hc]⟩
    have hdrop : (middle ++ '"' :: (value.toList ++ '"' :: after)).drop (middle.length + 1) =
        value.toList ++ '"' :: after := by simp
    rw [quotedReturnAfter_found hsource hbefore hfound, hmiddle, Option.bind_some]
    simp only [hdrop, hvalue, Option.map_some, List.take_left, String.ofList_toList]

theorem Quoted.exists_found (h : Quoted source marker value) :
    ∃ i : Nat, findSubstring source marker = some (i : Int) := by
  obtain ⟨start, hstart, hrest⟩ :=
    Option.bind_eq_some_iff.mp ((quotedReturnAfter_ok_iff hmarker hne hquote).mpr h)
  split_ifs at hrest with hneg
  · cases Option.some.inj hrest
  · obtain ⟨i, rfl⟩ := Int.eq_ofNat_of_zero_le (Int.not_lt.mp hneg)
    exact ⟨i, hstart⟩

/-- There is nothing to return, and no pair in the text. -/
def NothingQuoted (source marker : String) : Prop :=
  IsBmp source ∧ ∀ value, ¬ Quoted source marker value

theorem quotedReturnAfter_error_iff
    (hlength : 2 * unitLength marker ≤ unitLength source + 1) :
    (∃ err, quotedReturnAfter source marker = some (.error err)) ↔ NothingQuoted source marker := by
  constructor
  · rintro ⟨err, h⟩
    refine ⟨?_, fun value hvalue => ?_⟩
    · obtain ⟨start, hstart, hrest⟩ := Option.bind_eq_some_iff.mp h
      by_cases hneg : start < 0
      · exact (isBmp_of_absent hlength hne hstart hneg).1
      · obtain ⟨i, rfl⟩ := Int.eq_ofNat_of_zero_le (Int.not_lt.mp hneg)
        obtain ⟨hbefore, hstands, hfirst⟩ := (findSubstring_eq_iff hmarker hne).mp hstart
        have hlength : (source.toList.take i).length = i :=
          List.length_take_of_le (Nat.le_of_lt (hstands.lt_length hne))
        have hsource : source.toList = source.toList.take i ++ source.toList.drop i :=
          (List.take_append_drop i _).symm
        have hall (h : IsBmp (String.ofList (source.toList.drop i))) : IsBmp source := by
          have happend := hbefore.append h
          rwa [← String.ofList_append, List.take_append_drop, String.ofList_toList] at happend
        rw [quotedReturnAfter_found hsource hbefore (by rwa [hlength])] at h
        obtain ⟨first, hquoteIn, h⟩ := Option.bind_eq_some_iff.mp h
        apply hall
        cases first with
        | none => exact (quoteIn_none hquoteIn).2
        | some q =>
            obtain ⟨last, hlast, h⟩ := Option.map_eq_some_iff.mp h
            cases last with
            | some k => cases h
            | none =>
                obtain ⟨middle, after, hmiddle, rfl, -, hbmp⟩ := quoteIn_found_iff.mp hquoteIn
                have hdrop : (source.toList.drop i).drop (middle.length + 1) = after := by
                  simp [hmiddle]
                rw [hdrop] at hlast
                rw [hmiddle, List.append_cons, String.ofList_append]
                exact (isBmp_concat hbmp (by decide)).append (quoteIn_none hlast).2
    · rw [(quotedReturnAfter_ok_iff hmarker hne hquote).mpr hvalue] at h
      cases Option.some.inj h
  · rintro ⟨hsource, hnone⟩
    obtain ⟨result, hresult⟩ := exists_quotedReturnAfter hsource marker
    cases result with
    | error err => exact ⟨err, hresult⟩
    | ok value =>
        exact absurd ((quotedReturnAfter_ok_iff hmarker hne hquote).mp hresult) (hnone value)

/-- A string with a default. -/
theorem quotedOr_iff (hlength : 2 * unitLength marker ≤ unitLength source + 1) (default : String) :
    (∃ result, quotedReturnAfter source marker = some result ∧
      result.toOption.getD default = value) ↔
      Quoted source marker value ∨ NothingQuoted source marker ∧ value = default := by
  rw [← quotedReturnAfter_ok_iff hmarker hne hquote,
    ← quotedReturnAfter_error_iff hmarker hne hquote hlength]
  constructor
  · rintro ⟨result, hresult, rfl⟩
    cases result with
    | error err => exact .inr ⟨⟨err, hresult⟩, rfl⟩
    | ok value => exact .inl hresult
  · rintro (hvalue | ⟨⟨err, herr⟩, rfl⟩)
    · exact ⟨_, hvalue, rfl⟩
    · exact ⟨_, herr, rfl⟩

end Quotes

/-! ## `parse_mulp_mbt_config` -/

/-- The text is read as a source in the language, and says what the configuration does. A
configuration may happen to be such a text. -/
structure ReadsAsScript (source : String) (config : MulpConfig) : Prop where
  name : Quoted source "pub fn package_name" config.pkg.name ∨
    NothingQuoted source "pub fn package_name" ∧ config.pkg.name = "mulp"
  version : config.pkg.version = none
  entry : Quoted source "pub fn entry_package" config.mulp.entry ∨
    NothingQuoted source "pub fn entry_package" ∧ config.mulp.entry = ""
  defaultTask : Quoted source "pub fn default_task" config.mulp.defaultTask

theorem parseMulpMbtConfig_eq_iff {source : String} (hlength : 39 ≤ unitLength source)
    (config : MulpConfig) :
    parseMulpMbtConfig source = some (.ok config) ↔ ReadsAsScript source config := by
  have hpackage : unitLength "pub fn package_name" = 19 := by decide
  have hentry : unitLength "pub fn entry_package" = 20 := by decide
  have hname (value : String) := @quotedOr_iff source "pub fn package_name" value (by decide)
    (by decide) (by decide) (by omega) "mulp"
  have hentries (value : String) := @quotedOr_iff source "pub fn entry_package" value (by decide)
    (by decide) (by decide) (by omega) ""
  have hdefault (value : String) := @quotedReturnAfter_ok_iff source "pub fn default_task" value
    (by decide) (by decide) (by decide)
  constructor
  · intro h
    obtain ⟨packageName, hpackageName, h⟩ := Option.bind_eq_some_iff.mp h
    obtain ⟨entry, hentry, h⟩ := Option.bind_eq_some_iff.mp h
    obtain ⟨defaultTask, hdefaultTask, h⟩ := Option.bind_eq_some_iff.mp h
    cases defaultTask with
    | error err => cases Option.some.inj h
    | ok defaultTask =>
        obtain rfl := Except.ok.inj (Option.some.inj h)
        exact ⟨(hname _).mp ⟨packageName, hpackageName, rfl⟩, rfl,
          (hentries _).mp ⟨entry, hentry, rfl⟩, (hdefault _).mp hdefaultTask⟩
  · rintro ⟨hnames, hversion, hentrys, hdefaultTask⟩
    obtain ⟨packageName, hpackageName, hnameEq⟩ := (hname _).mpr hnames
    obtain ⟨entry, hentry, hentryEq⟩ := (hentries _).mpr hentrys
    rw [parseMulpMbtConfig, hpackageName, hentry, (hdefault _).mpr hdefaultTask]
    obtain ⟨⟨name, version⟩, ⟨entryName, defaultTask⟩⟩ := config
    dsimp only at hnameEq hversion hentryEq
    simp only [Option.bind_eq_bind, Option.bind_some, hnameEq, hentryEq, hversion]

end Mulp.Cli
