import Shortcode.Proofs.Tag.Enclosed
import Shortcode.Proofs.Tag.Order

namespace Shortcode.Scanner

variable {s : Scanner} {content : String}

theorem scan_unterminated (s : Scanner) (content : String) :
    (s.scan content).unterminated =
      (s.names.zip ((s.pairing content).lanes.toList.map (·.waiting.length))).filter
        (0 < ·.2) := by
  rw [scan]
  split
  · next h =>
    rw [pairing, tokensOf_eq_nil h]
    refine (List.filter_eq_nil_iff.2 ?_).symm
    intro u hu
    have waits := (List.of_mem_zip hu).2
    simp only [Tag.Pairing.run, Tag.Pairing.start, List.foldl_nil, Vector.toList_replicate,
      List.map_replicate, List.length_nil] at waits
    rw [List.eq_of_mem_replicate waits]
    decide
  · rw [← passed_tokens]
    rfl

/-- Each name is reported that has tags that wait, with their number. -/
theorem mem_unterminated {u : String × Nat} :
    u ∈ (s.scan content).unterminated ↔
      ∃ k, (s.names.map String.toList).get k = u.1.toList ∧
        ((s.pairing content).lane k).waiting.length = u.2 ∧ 0 < u.2 := by
  rw [scan_unterminated, List.mem_filter, decide_eq_true_iff, List.mem_iff_getElem]
  constructor
  · rintro ⟨⟨i, hi, rfl⟩, hpos⟩
    rw [List.length_zip] at hi
    have hk : i < (s.names.map String.toList).length := by
      rw [List.length_map]
      omega
    refine ⟨⟨i, hk⟩, ?_, ?_, hpos⟩
    · simp
    · simp [Tag.Pairing.lane, Vector.get]
  · rintro ⟨k, hname, hcount, hpos⟩
    have hk : k < s.names.length := by
      rw [← List.length_map (f := String.toList)]
      exact k.isLt
    have first : s.names[k] = u.1 := by
      apply String.toList_injective
      simpa using hname
    refine ⟨⟨k, by simpa using hk, ?_⟩, hpos⟩
    rw [List.getElem_zip]
    apply Prod.ext
    · exact first
    · simpa [Tag.Pairing.lane, Vector.get] using hcount

theorem ordered_unterminated (h : s.names.Pairwise fun a b => Tag.precedes a b = true)
    (content : String) :
    (s.scan content).unterminated.Pairwise fun a b => Tag.precedes a.1 b.1 = true := by
  have lengths : s.names.length ≤
      ((s.pairing content).lanes.toList.map (·.waiting.length)).length := by
    rw [List.length_map, Vector.length_toList, List.length_map]
  rw [← List.map_fst_zip lengths] at h
  rw [scan_unterminated]
  exact (List.pairwise_map.1 h).filter _

end Shortcode.Scanner
