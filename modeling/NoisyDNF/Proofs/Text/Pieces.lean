import Mathlib.Data.List.Nodup
import NoisyDNF.Text.Pairs

namespace NoisyDNF.Text

theorem byteSize_append (cs ds : List Char) : byteSize (cs ++ ds) = byteSize cs + byteSize ds := by
  induction cs with
  | nil => rw [List.nil_append, byteSize, Nat.zero_add]
  | cons c cs ih => rw [List.cons_append, byteSize, byteSize, ih, Nat.add_assoc]

/-- Characters of a text start at different bytes. -/
theorem append_inj_of_byteSize {cs cs' ds ds' : List Char} (h : cs ++ ds = cs' ++ ds')
    (hsize : byteSize cs = byteSize cs') : cs = cs' ∧ ds = ds' := by
  induction cs generalizing cs' with
  | nil =>
    cases cs' with
    | nil => exact ⟨rfl, h⟩
    | cons c cs' =>
      have hpos := c.utf8Size_pos
      rw [byteSize, byteSize] at hsize
      omega
  | cons c cs ih =>
    cases cs' with
    | nil =>
      have hpos := c.utf8Size_pos
      rw [byteSize, byteSize] at hsize
      omega
    | cons c' cs' =>
      obtain ⟨rfl, htail⟩ := List.cons.inj h
      obtain ⟨rfl, rfl⟩ := ih htail (Nat.add_left_cancel hsize)
      exact ⟨rfl, rfl⟩

namespace Pairs

variable {text piece : List Char} {ps : List (List Char)} {start : ℕ} {c : Chunk}

theorem not_mem_of_mem_splitOn (h : piece ∈ text.splitOn ',') : ',' ∉ piece := by
  induction text generalizing piece with
  | nil =>
    rw [List.splitOn_nil, List.mem_singleton] at h
    exact h ▸ List.not_mem_nil
  | cons x text ih =>
    obtain ⟨p, ps, hsplit⟩ := List.exists_cons_of_ne_nil (List.splitOn_ne_nil ',' text)
    rw [List.splitOn_cons_eq_if_modifyHead, hsplit] at h
    rw [hsplit] at ih
    split at h
    · rcases List.mem_cons.1 h with rfl | h
      · exact List.not_mem_nil
      · exact ih h
    · next hx =>
      rw [List.modifyHead_cons] at h
      rcases List.mem_cons.1 h with rfl | h
      · intro hcomma
        rcases List.mem_cons.1 hcomma with rfl | hcomma
        · exact hx rfl
        · exact ih List.mem_cons_self hcomma
      · exact ih (List.mem_cons_of_mem p h)

theorem intercalate_append {xs ys : List (List Char)} (hx : xs ≠ []) (hy : ys ≠ []) :
    [','].intercalate (xs ++ ys) = [','].intercalate xs ++ ',' :: [','].intercalate ys := by
  induction xs with
  | nil => exact absurd rfl hx
  | cons x xs ih =>
    cases xs with
    | nil => simp [List.intercalate_cons_of_ne_nil hy]
    | cons x' xs =>
      rw [List.cons_append, List.cons_append, List.intercalate_cons_cons, ← List.cons_append,
        ih (List.cons_ne_nil x' xs), List.intercalate_cons_cons]
      simp only [List.append_assoc]

def span : List (List Char) → ℕ
  | [] => 0
  | p :: ps => byteSize p + 1 + span ps

theorem span_eq (h : ps ≠ []) : span ps = byteSize ([','].intercalate ps) + 1 := by
  induction ps with
  | nil => exact absurd rfl h
  | cons p ps ih =>
    cases ps with
    | nil => simp [span]
    | cons p' ps =>
      have hcomma : byteSize [','] = 1 := rfl
      rw [span, ih (List.cons_ne_nil p' ps), List.intercalate_cons_cons, byteSize_append,
        byteSize_append, hcomma]
      omega

theorem place_append (start : ℕ) (xs ys : List (List Char)) :
    place start (xs ++ ys) = place start xs ++ place (start + span xs) ys := by
  induction xs generalizing start with
  | nil => rfl
  | cons x xs ih =>
    have hspan : start + span (x :: xs) = start + byteSize x + 1 + span xs := by
      rw [span]
      omega
    rw [List.cons_append, place, place, ih, hspan, List.cons_append]

theorem map_text_place (start : ℕ) (ps : List (List Char)) :
    (place start ps).map Chunk.text = ps := by
  induction ps generalizing start with
  | nil => rfl
  | cons p ps ih => rw [place, List.map_cons, ih]

theorem le_start_of_mem_place (h : c ∈ place start ps) : start ≤ c.start := by
  induction ps generalizing start with
  | nil => cases h
  | cons p ps ih =>
    rcases List.mem_cons.1 h with rfl | h
    · exact Nat.le_refl _
    · have hle := ih h
      omega

theorem sorted_place (start : ℕ) (ps : List (List Char)) :
    (place start ps).Pairwise fun c d ↦ c.start < d.start := by
  induction ps generalizing start with
  | nil => exact .nil
  | cons p ps ih =>
    refine .cons (fun c hc ↦ ?_) (ih _)
    have hle := le_start_of_mem_place hc
    change start < c.start
    omega

theorem exists_of_mem_place (h : c ∈ place start ps) :
    ∃ xs ys, ps = xs ++ c.text :: ys ∧ c.start = start + span xs := by
  induction ps generalizing start with
  | nil => cases h
  | cons p ps ih =>
    rcases List.mem_cons.1 h with rfl | h
    · exact ⟨[], ps, rfl, rfl⟩
    · obtain ⟨xs, ys, rfl, hstart⟩ := ih h
      refine ⟨p :: xs, ys, rfl, ?_⟩
      rw [span]
      omega

/-- A piece of a text that begins at the given byte, stands between commas or the ends of the text, and is not
blank. -/
structure IsPiece (text : List Char) (start : ℕ) (piece : List Char) : Prop where
  exists_eq_append : ∃ before after, text = before ++ piece ++ after ∧ byteSize before = start ∧
    (∀ c ∈ before.getLast?, c = ',') ∧ ∀ c ∈ after.head?, c = ','
  comma_not_mem : ',' ∉ piece
  not_blank : ∃ c ∈ piece, isBlank c = false

theorem exists_eq_append_of_mem_place (h : c ∈ place 0 (text.splitOn ',')) :
    ∃ before after, text = before ++ c.text ++ after ∧ byteSize before = c.start ∧
      (∀ d ∈ before.getLast?, d = ',') ∧ ∀ d ∈ after.head?, d = ',' := by
  obtain ⟨xs, ys, hsplit, hstart⟩ := exists_of_mem_place h
  have htext : text = [','].intercalate (xs ++ c.text :: ys) := by
    rw [← hsplit, List.intercalate_splitOn]
  obtain ⟨after, hafter, hhead⟩ : ∃ after, [','].intercalate (c.text :: ys) = c.text ++ after ∧
      ∀ d ∈ after.head?, d = ',' := by
    cases ys with
    | nil => exact ⟨[], by simp, nofun⟩
    | cons y ys =>
      refine ⟨',' :: [','].intercalate (y :: ys), by simp [List.intercalate_cons_cons], ?_⟩
      rintro d ⟨⟩
      rfl
  cases xs with
  | nil => exact ⟨[], after, htext.trans hafter, hstart.symm, nofun, hhead⟩
  | cons x xs =>
    have hne := List.cons_ne_nil x xs
    refine ⟨[','].intercalate (x :: xs) ++ [','], after, ?_, ?_, ?_, hhead⟩
    · rw [htext, intercalate_append hne (List.cons_ne_nil _ _), hafter]
      simp
    · rw [byteSize_append, hstart, span_eq hne, Nat.zero_add]
      rfl
    · intro d hd
      rw [List.getLast?_concat] at hd
      exact (Option.mem_some_iff.1 hd).symm

theorem mem_place_of_eq_append {before after : List Char} (hpiece : ',' ∉ piece)
    (htext : text = before ++ piece ++ after) (hbefore : ∀ d ∈ before.getLast?, d = ',')
    (hafter : ∀ d ∈ after.head?, d = ',') :
    ⟨byteSize before, piece⟩ ∈ place 0 (text.splitOn ',') := by
  obtain ⟨ys, hys⟩ : ∃ ys, (piece ++ after).splitOn ',' = piece :: ys := by
    cases after with
    | nil => exact ⟨[], by rw [List.append_nil, List.splitOn_eq_singleton hpiece]⟩
    | cons d after =>
      obtain rfl := hafter d rfl
      exact ⟨_, List.splitOn_append_cons_self_of_not_mem hpiece after⟩
  rcases List.eq_nil_or_concat' before with rfl | ⟨b, d, rfl⟩
  · rw [htext, List.nil_append, hys]
    exact List.mem_cons_self
  · obtain rfl := hbefore d (List.getLast?_concat ..)
    have hsize : byteSize (b ++ [',']) = 0 + span (b.splitOn ',') := by
      rw [span_eq (List.splitOn_ne_nil ',' b), List.intercalate_splitOn, byteSize_append, Nat.zero_add]
      rfl
    rw [htext, List.append_assoc, List.append_assoc, List.singleton_append,
      List.splitOn_append_cons_self, hys, place_append, hsize]
    exact List.mem_append_right _ List.mem_cons_self

theorem mem_chunks_iff : c ∈ chunks text ↔ IsPiece text c.start c.text := by
  have hblank : (!c.text.all isBlank) = true ↔ ∃ d ∈ c.text, isBlank d = false := by
    simp
  rw [chunks, List.mem_filter, hblank]
  constructor
  · rintro ⟨h, hne⟩
    refine ⟨exists_eq_append_of_mem_place h, ?_, hne⟩
    have htext : c.text ∈ (place 0 (text.splitOn ',')).map Chunk.text := List.mem_map_of_mem h
    rw [map_text_place] at htext
    exact not_mem_of_mem_splitOn htext
  · rintro ⟨⟨before, after, htext, hstart, hbefore, hafter⟩, hcomma, hne⟩
    refine ⟨?_, hne⟩
    have hmem := mem_place_of_eq_append hcomma htext hbefore hafter
    rw [hstart] at hmem
    exact hmem

theorem sorted_chunks (text : List Char) : (chunks text).Pairwise fun c d ↦ c.start < d.start :=
  (sorted_place 0 _).sublist List.filter_sublist

theorem IsPiece.unique {piece' : List Char} (h : IsPiece text start piece) (h' : IsPiece text start piece') :
    piece = piece' := by
  have hnodup : ((chunks text).map Chunk.start).Nodup :=
    (List.pairwise_map.2 (sorted_chunks text)).imp Nat.ne_of_lt
  have hchunk := List.inj_on_of_nodup_map hnodup (mem_chunks_iff (c := ⟨start, piece⟩).2 h)
    (mem_chunks_iff (c := ⟨start, piece'⟩).2 h') rfl
  exact congrArg Chunk.text hchunk

def pieces (text : List Char) : List (List Char) := (text.splitOn ',').filter (!·.all isBlank)

theorem map_text_chunks (text : List Char) : (chunks text).map Chunk.text = pieces text := by
  rw [chunks, pieces, ← map_text_place 0 (text.splitOn ','), List.filter_map, map_text_place]
  rfl

end Pairs

end NoisyDNF.Text
