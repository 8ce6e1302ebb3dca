import Ewokos.Evim.Growth

/-!
# evim: opening and closing holes

What `text_hole_make` and `text_hole_delete` of `bin/evim/vim_text.c` do to the text and to the
positions in it, wherever `realloc` puts the block.

* `KeepsPlaces` — the cursor, the screen and the marks keep their offsets from `text`.
* `holes` — the two functions.
-/

set_option autoImplicit false

namespace Evim.Ed

/-- The positions that are at the same offsets from `text`. -/
structure KeepsPlaces (s t : Ed) : Prop where
  dot : t.dot - t.text = s.dot - s.text
  screenbegin : t.screenbegin - t.text = s.screenbegin - s.text
  mark : ∀ i, (t.mark i).map (· - t.text) = (s.mark i).map (· - s.text)
  anchor : t.viVisualAnchor.map (· - t.text) = s.viVisualAnchor.map (· - s.text)

variable {s : Ed}

theorem textHoleMake_keeps (s : Ed) (p size : Int) : KeepsPlaces s (s.textHoleMake p size).2 := by
  obtain ⟨hdot, hscreen, hmark, hanchor⟩ := s.textHoleMake_rebased p size
  have htext := s.textHoleMake_text p size
  refine ⟨?_, ?_, fun i => ?_, ?_⟩
  · omega
  · omega
  · rw [hmark, htext]
    exact map_rebased _ _ _
  · rw [hanchor, htext]
    exact map_rebased _ _ _

theorem textHoleDelete_keeps {p q : Int} (h₀ : s.text ≤ p) (h₁ : p ≤ q) (h₂ : q < s.end_)
    (undo : Undo) : KeepsPlaces s (s.textHoleDelete p q undo).2 := by
  rw [textHoleDelete_state s h₀ h₁ h₂]
  exact ⟨rfl, rfl, fun _ => rfl, rfl⟩

/-- **The two hole primitives.** -/
theorem holes (s : Ed) :
    (s.Fits → ∀ p size : Int, s.text ≤ p → p ≤ s.end_ → 0 < size →
      (s.textHoleMake p size).2.bytes = s.bytes.take (p - s.text).toNat ++
          List.replicate size.toNat 32 ++ s.bytes.drop (p - s.text).toNat ∧
        (s.textHoleMake p size).2.end_ - (s.textHoleMake p size).2.text <
          (s.textHoleMake p size).2.textSize ∧
        (s.textHoleMake p size).1 = (s.textHoleMake p size).2.text - s.text ∧
        KeepsPlaces s (s.textHoleMake p size).2) ∧
    ∀ (p q : Int) (undo : Undo), s.text ≤ p → p ≤ q → q < s.end_ →
      (s.textHoleDelete p q undo).2.bytes =
          s.bytes.take (p - s.text).toNat ++ s.bytes.drop (q + 1 - s.text).toNat ∧
        (s.textHoleDelete p q undo).1 =
          (if (s.textHoleDelete p q undo).2.bytes = [] then (s.textHoleDelete p q undo).2.text
          else if p < (s.textHoleDelete p q undo).2.end_ then p
          else (s.textHoleDelete p q undo).2.end_ - 1) ∧
        KeepsPlaces s (s.textHoleDelete p q undo).2 := by
  refine ⟨fun hf p size h₀ h₁ hsize => ?_, fun p q undo h₀ h₁ h₂ => ?_⟩
  · obtain ⟨n, rfl⟩ := Int.eq_ofNat_of_zero_le hsize.le
    have htext := s.textHoleMake_text p n
    exact ⟨s.textHoleMake_bytes hf h₀ h₁ n, (s.textHoleMake_fits hf p n).lt_size, by omega,
      s.textHoleMake_keeps p n⟩
  · refine ⟨s.textHoleDelete_bytes h₀ h₁ h₂ undo, ?_, textHoleDelete_keeps h₀ h₁ h₂ undo⟩
    have hempty : (s.textHoleDelete p q undo).2.bytes = [] ↔ s.end_ - (q - p + 1) ≤ s.text := by
      rw [← List.length_eq_zero_iff, Buf.length_bytes, textHoleDelete_state s h₀ h₁ h₂]
      dsimp only
      omega
    rw [textHoleDelete_dest s h₀ h₁ h₂, if_congr hempty rfl rfl, textHoleDelete_state s h₀ h₁ h₂]
    dsimp only
    split
    · rfl
    · split
      · rw [if_neg (by omega)]
      · rw [if_pos (by omega)]

/-- A byte more for a full block, which moves; and its last two bytes gone. -/
theorem holes_crowded :
    KeepsPlaces crowded (crowded.textHoleMake 65536 1).2 ∧
      (crowded.textHoleDelete 75773 75774 .allow).2.bytes =
        crowded.bytes.take 10237 ++ crowded.bytes.drop 10239 := by
  obtain ⟨hmake, hdelete⟩ := holes crowded
  exact ⟨(hmake ⟨by decide, by decide⟩ 65536 1 (by decide) (by decide) (by decide)).2.2.2,
    (hdelete 75773 75774 .allow (by decide) (by decide) (by decide)).1⟩

end Evim.Ed
