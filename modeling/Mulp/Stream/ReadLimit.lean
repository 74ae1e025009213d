import Mathlib.Algebra.GroupWithZero.Nat
import Mathlib.Data.List.Infix
import Mulp.Stream.ReadAll

/-! The limit of `read_all_bytes` and its 32-bit total (`stream/byte_stream.mbt`).

The total is a sum of lengths in 32 bits, compared with the limit after each chunk. It
may wrap around more than once, and be within the limit again. -/
namespace Mulp.Stream.ByteStream

open Mulp.Core Pull

/-! ## What the limit is for -/

/-- The sum of the lengths of the chunks. -/
def totalLength (chunks : List Bytes) : Nat := (chunks.map List.length).sum

/-- The bytes of a stream that ends without an error come back if they are no more than the limit;
otherwise the result is an error. The limit is of the bytes in all, as a number without a bound. -/
def Enforces (maxBytes : Int) (sc : Script MulpError Bytes) (r : Except MulpError Bytes) : Prop :=
  ∀ bytes, r = .ok bytes ↔
    sc.ending = .ok () ∧ (totalLength sc.items : Int) ≤ maxBytes ∧ bytes = sc.items.flatten

/-- After some of the chunks the sum of their lengths is above the limit as a 32-bit integer. It is
the check that the code makes after every chunk, and the first one that trips ends the loop. -/
def Trips (maxBytes : Int) (chunks : List Bytes) : Prop :=
  ∃ first, first <+: chunks ∧ maxBytes < (totalLength first % 2 ^ 32 : Nat) ∧
    totalLength first % 2 ^ 32 < 2 ^ 31

section Limit

variable {maxBytes : Int} {sc : Script MulpError Bytes} {bytes : Bytes}

theorem length_flatten (chunks : List Bytes) : chunks.flatten.length = totalLength chunks :=
  List.length_flatten

theorem totalLength_le {first chunks : List Bytes} (h : first <+: chunks) :
    totalLength first ≤ totalLength chunks := by
  obtain ⟨more, rfl⟩ := h
  rw [totalLength, totalLength, List.map_append, List.sum_append]
  exact Nat.le_add_right _ _

theorem lt_int32_iff {n : Nat} (hmax : 0 ≤ maxBytes) :
    maxBytes < int32 n ↔ maxBytes < (n % 2 ^ 32 : Nat) ∧ n % 2 ^ 32 < 2 ^ 31 := by
  unfold int32
  rw [Int.bmod_def]
  split_ifs <;> omega

/-! ## What comes back -/

/-- Over the limit, the stream is given up. -/
theorem readWrapped_exceeded {first : List Bytes} (hfirst : first <+: sc.items)
    (hbytes : int32 bytes.length ≤ maxBytes)
    (hover : maxBytes < int32 (bytes ++ first.flatten).length) :
    readWrapped maxBytes bytes sc = .error (exceeded maxBytes) := by
  have hnone {bytes : Bytes} {first : List Bytes} (hnil : first = [])
      (hbytes : int32 bytes.length ≤ maxBytes)
      (hover : maxBytes < int32 (bytes ++ first.flatten).length) : False := by
    rw [hnil, List.flatten_nil, List.append_nil] at hover
    exact absurd hover (Int.not_lt.mpr hbytes)
  induction sc generalizing bytes first with
  | done => exact (hnone (List.prefix_nil.mp hfirst) hbytes hover).elim
  | fail err => exact (hnone (List.prefix_nil.mp hfirst) hbytes hover).elim
  | item chunk rest ih =>
      rcases List.prefix_cons_iff.mp hfirst with hnil | ⟨others, rfl, hothers⟩
      · exact (hnone hnil hbytes hover).elim
      · rw [readWrapped]
        split_ifs with hchunk
        · rfl
        · refine ih hothers (Int.not_lt.mp hchunk) ?_
          rwa [List.append_assoc]

/-- Below the limit, as many bytes as the total says. -/
theorem readWrapped_done (hend : sc.ending = .ok ())
    (hwithin : ∀ first, first <+: sc.items → int32 (bytes ++ first.flatten).length ≤ maxBytes) :
    readWrapped maxBytes bytes sc =
      .ok ((bytes ++ sc.items.flatten).take (int32 (bytes ++ sc.items.flatten).length).toNat) := by
  induction sc generalizing bytes with
  | done =>
      have hitems : bytes ++ (Script.done : Script MulpError Bytes).items.flatten = bytes :=
        List.append_nil _
      rw [readWrapped, hitems]
  | fail err => cases hend
  | item chunk rest ih =>
      have hchunk := hwithin [chunk] (List.prefix_cons_inj chunk |>.mpr List.nil_prefix)
      rw [List.flatten_singleton] at hchunk
      have hitems : bytes ++ (Script.item chunk rest).items.flatten =
          bytes ++ chunk ++ rest.items.flatten := by
        rw [Script.items, List.flatten_cons, List.append_assoc]
      rw [readWrapped, if_neg (Int.not_lt.mpr hchunk), hitems]
      refine ih hend fun first hfirst => ?_
      rw [List.append_assoc, ← List.flatten_cons]
      exact hwithin (chunk :: first) (List.prefix_cons_inj chunk |>.mpr hfirst)

theorem readWrapped_failed {err : MulpError} (hend : sc.ending = .error err) :
    ∃ e, readWrapped maxBytes bytes sc = .error e := by
  induction sc generalizing bytes with
  | done => cases hend
  | fail err => exact ⟨err, rfl⟩
  | item chunk rest ih =>
      rw [readWrapped]
      split_ifs
      · exact ⟨_, rfl⟩
      · exact ih hend

theorem trips_iff (hmax : 0 ≤ maxBytes) {chunks : List Bytes} :
    Trips maxBytes chunks ↔ ∃ first, first <+: chunks ∧ maxBytes < int32 first.flatten.length := by
  refine exists_congr fun first => and_congr_right fun _ => ?_
  rw [length_flatten, lt_int32_iff hmax]

/-- The total trips only if the sum is above the limit. -/
theorem Trips.lt {chunks : List Bytes} (h : Trips maxBytes chunks) :
    maxBytes < totalLength chunks := by
  obtain ⟨first, hfirst, hover, -⟩ := h
  have hle := totalLength_le hfirst
  omega

theorem enforces_error {err : MulpError}
    (h : sc.ending ≠ .ok () ∨ maxBytes < totalLength sc.items) :
    Enforces maxBytes sc (.error err) := by
  intro bytes
  refine iff_of_false nofun ?_
  rintro ⟨hend, hwithin, -⟩
  rcases h with hfail | hover
  · exact hfail hend
  · omega

theorem enforces_readWrapped_iff (hmax : 0 ≤ maxBytes) (hint : maxBytes < 2 ^ 31) :
    Enforces maxBytes sc (readWrapped maxBytes [] sc) ↔
      sc.ending ≠ .ok () ∨ (totalLength sc.items : Int) ≤ maxBytes ∨ Trips maxBytes sc.items := by
  have hzero : int32 ([] : Bytes).length ≤ maxBytes := by
    rw [int32_of_lt (by decide)]
    exact hmax
  rcases hend : sc.ending with err | ⟨⟩
  · -- whatever the total, there is an error
    obtain ⟨e, he⟩ := @readWrapped_failed maxBytes sc [] err hend
    rw [he]
    refine iff_of_true (enforces_error (.inl ?_)) (.inl nofun)
    rw [hend]
    exact nofun
  by_cases htrips : Trips maxBytes sc.items
  · obtain ⟨first, hfirst, hover⟩ := (trips_iff hmax).mp htrips
    rw [readWrapped_exceeded hfirst hzero (by rwa [List.nil_append])]
    exact iff_of_true (enforces_error (.inr htrips.lt)) (.inr (.inr htrips))
  · have hwithin : ∀ first, first <+: sc.items → int32 ([] ++ first.flatten).length ≤ maxBytes := by
      intro first hfirst
      rw [List.nil_append]
      exact Int.not_lt.mp fun hover => htrips ((trips_iff hmax).mpr ⟨first, hfirst, hover⟩)
    rw [readWrapped_done hend hwithin, List.nil_append]
    constructor
    · exact fun h => .inr (.inl ((h _).mp rfl).2.1)
    · rintro (hfail | hsum | htrips')
      · exact absurd rfl hfail
      · -- the sum is below 2^31, so the total is the sum
        intro bytes
        rw [int32_of_lt (by rw [length_flatten]; omega), Int.toNat_natCast, List.take_length]
        constructor
        · intro hbytes
          exact ⟨hend, hsum, (Except.ok.inj hbytes).symm⟩
        · rintro ⟨-, -, rfl⟩
          rfl
      · exact absurd htrips' htrips

end Limit

/-! ## The limit of a stream -/

/-- Whatever a stream has to say, `read_all_bytes` comes to an end without an index beyond a
chunk, and the close callback has then run once; the limit is enforced if the sum of the lengths
is within it or shows as a 32-bit integer that it is not. -/
theorem readAllBytes_enforces_iff {ω : Type} {s : ByteStream ω} {sc : Script MulpError Bytes} {maxBytes : Int}
    (hmax : 0 ≤ maxBytes) (hint : maxBytes < 2 ^ 31) (hsound : Sound s) (hplays : (machine ω).Plays sc s)
    (w : ω) :
    ∃ r, (∃ N s' w', (∀ n, N ≤ n → s.readAllBytes n maxBytes w = (some r, s', w')) ∧ s'.closeRuns = 1) ∧
      (Enforces maxBytes sc r ↔
        sc.ending ≠ .ok () ∨ (totalLength sc.items : Int) ≤ maxBytes ∨ Trips maxBytes sc.items) := by
  obtain ⟨N, s', w', hN⟩ := @readAllBytes_wrapped ω maxBytes s sc hplays w
  refine ⟨_, ⟨N, s', w', fun n hn => ?_, ?_⟩, enforces_readWrapped_iff hmax hint⟩
  · rw [readAllBytes_agrees maxBytes hn s w _ (by rw [hN]), hN]
  · have hs' := hsound.readAllBytes N maxBytes w
    rw [hN] at hs'
    rw [hs'.closeRuns_eq, consumed_of_readAllBytes hN]
    rfl

/-- Two bytes and a limit of two. -/
theorem readAllBytes_enforces_two :
    ∃ r, (∃ N s' w', (∀ n, N ≤ n →
          (fromBytes [[0x61], [], [0x62]] : ByteStream Unit).readAllBytes n 2 () = (some r, s', w')) ∧
        s'.closeRuns = 1) ∧
      (Enforces 2 (.ofList [[0x61], [], [0x62]]) r ↔
        (Script.ofList [[0x61], [], [0x62]] : Script MulpError Bytes).ending ≠ .ok () ∨
          (totalLength (Script.ofList [[0x61], [], [0x62]] : Script MulpError Bytes).items : Int) ≤ 2 ∨
          Trips 2 (Script.ofList [[0x61], [], [0x62]] : Script MulpError Bytes).items) :=
  readAllBytes_enforces_iff (by decide) (by decide) (Built.source _ _).sound (fromBytes_plays _) ()

/-- So many zero bytes. -/
def zeros (n : Nat) : Bytes := List.replicate n 0

/-- 16 chunks of 2^27 bytes, and a limit that holds 15 of them: after the last one the total is
-2^31, and nothing comes back. -/
theorem not_enforces_wrapped :
    (∃ N s' w', ∀ n, N ≤ n →
        (fromBytes (List.replicate 16 (zeros (2 ^ 27))) : ByteStream Unit).readAllBytes n (15 * 2 ^ 27) () =
          (some (.ok []), s', w')) ∧
      ¬ Enforces (15 * 2 ^ 27) (.ofList (List.replicate 16 (zeros (2 ^ 27)))) (.ok []) := by
  have hlength : (zeros (2 ^ 27)).length = 2 ^ 27 := List.length_replicate
  generalize zeros (2 ^ 27) = chunk at hlength
  have hitems : (Script.ofList (List.replicate 16 chunk) : Script MulpError Bytes).items =
      List.replicate 16 chunk := rfl
  have htotal (k : Nat) : (List.replicate k chunk).flatten.length = k * 2 ^ 27 := by
    rw [length_flatten, totalLength, List.map_replicate, List.sum_replicate_nat, hlength]
  have hread : readWrapped (15 * 2 ^ 27) [] (Script.ofList (List.replicate 16 chunk)) = .ok [] := by
    rw [readWrapped_done rfl, List.nil_append, hitems, htotal]
    · rfl
    · intro first hfirst
      rw [hitems, List.prefix_replicate_iff] at hfirst
      have hsums : ∀ k ≤ 16, int32 (k * 2 ^ 27) ≤ 15 * 2 ^ 27 := by decide
      rw [List.nil_append, hfirst.2, htotal]
      exact hsums _ hfirst.1
  constructor
  · obtain ⟨N, s', w', hN⟩ := readAllBytes_wrapped (fromBytes_plays (List.replicate 16 chunk)) ()
    rw [hread] at hN
    refine ⟨N, s', w', fun n hn => ?_⟩
    rw [readAllBytes_agrees (15 * 2 ^ 27) hn _ () _ (by rw [hN]), hN]
  · intro henforces
    have hwithin := ((henforces []).mp rfl).2.1
    rw [hitems, ← length_flatten, htotal] at hwithin
    exact absurd hwithin (by decide)

end Mulp.Stream.ByteStream
