import Mulp.Lib.Utf8

/-! Decoding UTF-8 in chunks.

The decoder replaces what is no text, piece by piece. Decoding each chunk for itself is
the same as decoding the whole exactly if every chunk ends where a piece does. -/
namespace Utf8

/-! ## Lengths -/

section Longer

variable {α : Type} {f : List α → List α} {l : List (List α)}

theorem length_flatten_le (h : ∀ part ∈ l, part.length ≤ (f part).length) :
    l.flatten.length ≤ (l.flatMap f).length := by
  induction l with
  | nil => exact Nat.le_refl 0
  | cons part rest ih =>
      rw [List.forall_mem_cons] at h
      have hrest := ih h.2
      rw [List.flatten_cons, List.flatMap_cons, List.length_append, List.length_append]
      have hpart := h.1
      omega

/-- If no part gets shorter and the whole stays the same, each part does. -/
theorem eq_of_flatMap_eq_flatten (h : ∀ part ∈ l, part.length ≤ (f part).length)
    (heq : l.flatMap f = l.flatten) : ∀ part ∈ l, f part = part := by
  induction l with
  | nil => nofun
  | cons part rest ih =>
      rw [List.forall_mem_cons] at h
      have hrest := length_flatten_le h.2
      have hlength := congrArg List.length heq
      rw [List.flatMap_cons, List.flatten_cons, List.length_append, List.length_append] at hlength
      have hpart := h.1
      rw [List.flatMap_cons, List.flatten_cons] at heq
      obtain ⟨hfirst, hmore⟩ := List.append_inj heq (by omega)
      exact List.forall_mem_cons.mpr ⟨hfirst, ih h.2 hmore⟩

end Longer

theorem Piece.Sound.length_le {piece : Piece} (h : piece.Sound) :
    piece.bytes.length ≤ (String.utf8EncodeChar piece.char).length := by
  have hreplacement : (String.utf8EncodeChar replacement).length = 3 := by decide
  cases h with
  | valid c => exact Nat.le_refl _
  | stray b _ =>
      rw [hreplacement, List.length_singleton]
      omega
  | broken b conts _ _ hlength =>
      rw [hreplacement, List.length_cons]
      omega

/-- What is decoded takes no fewer bytes again. -/
theorem length_le_encode_decodeLossy (bytes : List UInt8) :
    bytes.length ≤ (encode (decodeLossy bytes)).length := by
  have hle : ((pieces bytes).flatMap Piece.bytes).countP (fun _ => true) ≤
      ((pieces bytes).flatMap fun piece => String.utf8EncodeChar piece.char).countP fun _ => true :=
    countP_flatMap_le fun piece hpiece => by
      simpa using (sound_of_mem_pieces hpiece).length_le
  rw [flatMap_pieces] at hle
  simpa [encode, decodeLossy, List.flatMap_map] using hle

/-! ## Chunks -/

theorem encode_flatMap (f : List UInt8 → List Char) (chunks : List (List UInt8)) :
    encode (chunks.flatMap f) = chunks.flatMap fun chunk => encode (f chunk) := by
  induction chunks with
  | nil => rfl
  | cons chunk rest ih => rw [List.flatMap_cons, encode_append, ih, List.flatMap_cons]

/-- A text that is cut into chunks is decoded exactly if no chunk ends within a
character. -/
theorem flatMap_decodeLossy_iff {chunks : List (List UInt8)} {chars : List Char}
    (h : chunks.flatten = encode chars) :
    chunks.flatMap decodeLossy = chars ↔ ∀ chunk ∈ chunks, Valid chunk := by
  constructor
  · intro hdecode chunk hchunk
    have heq : (chunks.flatMap fun chunk => encode (decodeLossy chunk)) = chunks.flatten := by
      rw [← encode_flatMap, hdecode, h]
    have hsame := eq_of_flatMap_eq_flatten (fun part _ => length_le_encode_decodeLossy part) heq
    exact encode_decodeLossy.mp (hsame chunk hchunk)
  · intro hvalid
    refine encode_injective ?_
    rw [encode_flatMap, ← h]
    clear h
    induction chunks with
    | nil => rfl
    | cons chunk rest ih =>
        rw [List.forall_mem_cons] at hvalid
        rw [List.flatMap_cons, List.flatten_cons, encode_decodeLossy.mpr hvalid.1, ih hvalid.2]

/-! ## Pieces of chunks -/

/-- A piece that lies within the start of an input is the piece of that start. -/
theorem cut_append {b : UInt8} {first second : List UInt8}
    (h : (cut b (first ++ second)).bytes.length ≤ first.length + 1) :
    cut b (first ++ second) = cut b first := by
  have htwo {x y : UInt8} {c : Char} : ¬ (⟨[x, y], c⟩ : Piece).bytes.length ≤ 0 + 1 := by simp
  unfold cut at h ⊢
  split_ifs with hascii
  · rfl
  rw [if_neg hascii] at h
  -- a longer piece would reach into `second`
  rcases first with _ | ⟨b₁, first⟩
  · rcases second with _ | ⟨b₁, second⟩
    · rfl
    dsimp only [List.nil_append, List.length_nil] at h ⊢
    split_ifs at h ⊢
    · exact absurd h htwo
    · rcases second with _ | ⟨b₂, second⟩
      · exact absurd h htwo
      · dsimp only at h
        split_ifs at h <;> simp at h
    · rcases second with _ | ⟨b₂, _ | ⟨b₃, second⟩⟩
      · exact absurd h htwo
      · dsimp only at h
        split_ifs at h <;> simp at h
      · dsimp only at h
        split_ifs at h <;> simp at h
    · rfl
  dsimp only [List.cons_append, List.length_cons] at h ⊢
  split_ifs at h ⊢ with hpair hstart₃ hstart₄
  · rfl
  · rcases first with _ | ⟨b₂, first⟩
    · rcases second with _ | ⟨b₂, second⟩
      · rfl
      · dsimp only [List.nil_append, List.length_nil] at h ⊢
        split_ifs at h ⊢
        · simp at h
        · rfl
    · rfl
  · rcases first with _ | ⟨b₂, _ | ⟨b₃, first⟩⟩
    · rcases second with _ | ⟨b₂, _ | ⟨b₃, second⟩⟩
      · rfl
      all_goals
        dsimp only [List.nil_append, List.length_nil] at h ⊢
        split_ifs at h ⊢ <;> first | rfl | simp at h
    · rcases second with _ | ⟨b₃, second⟩
      · rfl
      · dsimp only [List.nil_append, List.cons_append, List.length_nil, List.length_cons] at h ⊢
        split_ifs at h ⊢ <;> first | rfl | simp at h
    · rfl
  · rfl

theorem Piece.Sound.cont {piece : Piece} (h : piece.Sound) : ∀ b ∈ piece.bytes.tail, Cont b := by
  intro b hb
  cases h with
  | valid c =>
      have hvalid : c.toNat.isValidChar := c.valid
      simp only [Nat.isValidChar] at hvalid
      rw [utf8EncodeChar_eq, encodeNat] at hb
      split_ifs at hb
      · cases hb
      all_goals
        simp only [List.tail_cons, List.mem_cons, List.not_mem_nil, or_false] at hb
        rcases hb with rfl | rfl | rfl <;> rw [Cont, UInt8.toNat_ofNat'] <;> omega
  | stray _ _ => cases hb
  | broken _ conts _ hconts _ => exact hconts b hb

/-- A byte that may follow in a sequence starts none. -/
theorem pieces_cont_cons {c : UInt8} (h : Cont c) (rest : List UInt8) :
    pieces (c :: rest) = ⟨[c], replacement⟩ :: pieces rest := by
  have hlead : ¬ Lead2 c := by
    simp only [Lead2, Cont] at h ⊢
    omega
  have hthree (d : UInt8) : ¬ Start3 c d := by
    simp only [Start3, Cont] at h ⊢
    omega
  have hfour (d : UInt8) : ¬ Start4 c d := by
    simp only [Start4, Cont] at h ⊢
    omega
  have hcut : cut c rest = ⟨[c], replacement⟩ := by
    unfold cut
    rw [if_neg (Nat.not_lt_of_le h.1)]
    cases rest with
    | nil => rfl
    | cons d rest =>
        dsimp only
        rw [if_neg fun hpair => hlead hpair.1, if_neg (hthree d), if_neg (hfour d)]
  rw [pieces_cons, hcut]
  rfl

theorem length_pieces_conts {conts : List UInt8} (h : ∀ c ∈ conts, Cont c) (rest : List UInt8) :
    (pieces (conts ++ rest)).length = conts.length + (pieces rest).length := by
  induction conts with
  | nil => simp
  | cons c conts ih =>
      rw [List.forall_mem_cons] at h
      rw [List.cons_append, pieces_cont_cons h.1, List.length_cons, List.length_cons, ih h.2]
      omega

/-- An input that is cut in two has the pieces of the two, or these are more. -/
theorem pieces_append (first second : List UInt8) :
    pieces (first ++ second) = pieces first ++ pieces second ∨
      (pieces (first ++ second)).length < (pieces first).length + (pieces second).length := by
  induction hlength : first.length using Nat.strongRecOn generalizing first with
  | ind n ih =>
      rcases first with _ | ⟨b, first⟩
      · exact .inl rfl
      rw [List.cons_append, pieces_cons]
      by_cases hwithin : (cut b (first ++ second)).bytes.length ≤ first.length + 1
      · have hcut := cut_append hwithin
        rw [hcut] at hwithin
        have hlt : (first.drop ((cut b first).bytes.length - 1)).length < n := by
          rw [← hlength, List.length_drop, List.length_cons]
          omega
        rw [hcut, pieces_cons, List.drop_append_of_le_length (by omega), List.cons_append,
          List.length_cons, List.length_cons]
        rcases ih _ hlt _ rfl with heq | hmore
        · exact .inl (congrArg _ heq)
        · exact .inr (by omega)
      · -- the first piece goes on in `second`, with bytes that start none of their own
        right
        have hbytes := cut_prefix b (first ++ second)
        have hcont := (cut_sound b (first ++ second)).cont
        generalize cut b (first ++ second) = piece at hwithin hbytes hcont ⊢
        rw [List.drop_append, List.drop_eq_nil_of_le (by omega), List.nil_append] at hbytes ⊢
        generalize hk : piece.bytes.length - 1 - first.length = k at hbytes ⊢
        have htake : piece.bytes = b :: first ++ second.take k := by
          have hcancel : b :: first ++ second.take k ++ second.drop k =
              piece.bytes ++ second.drop k := by
            rw [List.append_assoc, List.take_append_drop]
            exact hbytes
          exact (List.append_cancel_right hcancel).symm
        rw [htake, List.cons_append, List.tail_cons] at hcont
        have hsecond := length_pieces_conts (fun c hc => hcont c (List.mem_append_right _ hc))
          (second.drop k)
        rw [List.take_append_drop] at hsecond
        have hpos : 0 < (second.take k).length := by
          have hsize := congrArg List.length htake
          rw [List.length_append, List.length_cons] at hsize
          omega
        rw [pieces_cons, List.length_cons, List.length_cons]
        omega

/-- The input has a piece that ends where the first part does. -/
def EndsPiece (first second : List UInt8) : Prop :=
  ∃ k, ((pieces (first ++ second)).take k).flatMap Piece.bytes = first

theorem EndsPiece.nil (second : List UInt8) : EndsPiece [] second := ⟨0, by simp⟩

theorem EndsPiece.pieces_eq {first second : List UInt8} (h : EndsPiece first second) :
    pieces (first ++ second) = pieces first ++ pieces second := by
  induction hlength : first.length using Nat.strongRecOn generalizing first with
  | ind n ih =>
      obtain ⟨k, hk⟩ := h
      rcases first with _ | ⟨b, first⟩
      · rfl
      rw [List.cons_append, pieces_cons] at hk
      rcases k with _ | k
      · cases hk
      rw [List.take_succ_cons, List.flatMap_cons] at hk
      have hwithin : (cut b (first ++ second)).bytes.length ≤ first.length + 1 := by
        have hsize := congrArg List.length hk
        rw [List.length_append, List.length_cons] at hsize
        omega
      have hcut := cut_append hwithin
      rw [hcut] at hwithin hk
      rw [List.drop_append_of_le_length (by omega), cut_prefix b first] at hk
      have hlt : (first.drop ((cut b first).bytes.length - 1)).length < n := by
        rw [← hlength, List.length_drop, List.length_cons]
        omega
      have hrest := ih _ hlt ⟨k, List.append_cancel_left hk⟩ rfl
      rw [List.cons_append, pieces_cons, hcut, List.drop_append_of_le_length (by omega), hrest,
        pieces_cons, List.cons_append]

/-- No chunk ends within a piece of the whole. -/
def Aligned (chunks : List (List UInt8)) : Prop :=
  ∀ before after, chunks = before ++ after → EndsPiece before.flatten after.flatten

theorem aligned_nil : Aligned [] := by
  intro before after h
  rw [(List.nil_eq_append_iff.mp h).1]
  exact .nil _

section Aligned

variable {chunk : List UInt8} {rest : List (List UInt8)}

theorem Aligned.tail (h : Aligned (chunk :: rest)) : Aligned rest := by
  rintro before after rfl
  have hpieces := (h [chunk] (before ++ after) rfl).pieces_eq
  obtain ⟨k, hk⟩ := h (chunk :: before) after rfl
  rw [List.flatten_singleton] at hpieces
  rw [List.flatten_cons, List.append_assoc, ← List.flatten_append, hpieces, List.take_append,
    List.flatMap_append] at hk
  rcases Nat.le_total (pieces chunk).length k with hle | hle
  · rw [List.take_of_length_le hle, flatMap_pieces] at hk
    exact ⟨_, by rw [← List.flatten_append]; exact List.append_cancel_left hk⟩
  · -- there is nothing more in `before`
    have hsum := congrArg List.length hk
    have hchunk := congrArg List.length (flatMap_pieces chunk)
    rw [← List.take_append_drop k (pieces chunk), List.flatMap_append, List.length_append] at hchunk
    rw [Nat.sub_eq_zero_of_le hle, List.take_zero, List.flatMap_nil, List.append_nil,
      List.length_append] at hsum
    rw [List.eq_nil_of_length_eq_zero (by omega : before.flatten.length = 0)]
    exact .nil _

theorem aligned_cons : Aligned (chunk :: rest) ↔ EndsPiece chunk rest.flatten ∧ Aligned rest := by
  constructor
  · intro h
    have hfirst := h [chunk] rest rfl
    rw [List.flatten_singleton] at hfirst
    exact ⟨hfirst, h.tail⟩
  · rintro ⟨hfirst, hrest⟩ before after heq
    rcases List.cons_eq_append_iff.mp heq with ⟨rfl, rfl⟩ | ⟨before, rfl, rfl⟩
    · exact .nil _
    · obtain ⟨k, hk⟩ := hrest before after rfl
      refine ⟨(pieces chunk).length + k, ?_⟩
      rw [List.flatten_cons, List.append_assoc, ← List.flatten_append, hfirst.pieces_eq,
        List.take_length_add_append, List.flatMap_append, flatMap_pieces, List.flatten_append, hk]

end Aligned

theorem length_decodeLossy (bytes : List UInt8) :
    (decodeLossy bytes).length = (pieces bytes).length :=
  List.length_map _

theorem decodeLossy_append {first second : List UInt8}
    (h : pieces (first ++ second) = pieces first ++ pieces second) :
    decodeLossy (first ++ second) = decodeLossy first ++ decodeLossy second := by
  rw [decodeLossy, h, List.map_append]
  rfl

theorem length_decodeLossy_flatten_le (chunks : List (List UInt8)) :
    (decodeLossy chunks.flatten).length ≤ (chunks.flatMap decodeLossy).length := by
  induction chunks with
  | nil => exact Nat.le_refl 0
  | cons chunk rest ih =>
      rw [List.flatten_cons, List.flatMap_cons, List.length_append]
      rw [length_decodeLossy] at ih
      rw [length_decodeLossy, length_decodeLossy]
      rcases pieces_append chunk rest.flatten with heq | hlt
      · rw [heq, List.length_append]
        omega
      · omega

/-- Chunks that are decoded one by one give the text of the whole exactly if none ends within
a piece of it. -/
theorem flatMap_decodeLossy_eq {chunks : List (List UInt8)} :
    chunks.flatMap decodeLossy = decodeLossy chunks.flatten ↔ Aligned chunks := by
  induction chunks with
  | nil => exact iff_of_true rfl aligned_nil
  | cons chunk rest ih =>
      rw [aligned_cons, List.flatMap_cons, List.flatten_cons]
      constructor
      · intro heq
        have hpieces : pieces (chunk ++ rest.flatten) = pieces chunk ++ pieces rest.flatten := by
          refine (pieces_append chunk rest.flatten).resolve_right fun hlt => ?_
          have hsize := congrArg List.length heq
          have hle := length_decodeLossy_flatten_le rest
          rw [List.length_append, length_decodeLossy, length_decodeLossy] at hsize
          rw [length_decodeLossy] at hle
          omega
        rw [decodeLossy_append hpieces] at heq
        refine ⟨⟨(pieces chunk).length, ?_⟩, ih.mp (List.append_cancel_left heq)⟩
        rw [hpieces, List.take_left, flatMap_pieces]
      · rintro ⟨hfirst, hrest⟩
        rw [decodeLossy_append hfirst.pieces_eq, ih.mpr hrest]

end Utf8
