import Shortcode.Tag.Scan

namespace Shortcode.Scanner

private theorem flatMap_attach {α β : Type} (l : List α) (f : α → List β) :
    (l.attach.flatMap fun x => f x.1) = l.flatMap f := by
  rw [← List.flatMap_map Subtype.val f, List.attach_map_subtype_val]

/-- The tags of a text, each followed by those of its enclosed text. -/
def nested (s : Scanner) (content : String) : List Match :=
  (s.scan content).found.attach.flatMap fun ⟨m, hm⟩ =>
    m :: match h : m.inner with
      | some inner =>
        have := length_inner_lt hm h
        s.nested inner
      | none => []
termination_by content.length

theorem nested_eq (s : Scanner) (content : String) :
    s.nested content =
      (s.scan content).found.flatMap fun m => m :: (m.inner.map s.nested).getD [] := by
  rw [nested]
  refine Eq.trans ?_ (flatMap_attach _ _)
  congr 1
  funext ⟨m, hm⟩
  dsimp only
  split
  · next h => rw [h]; rfl
  · next h => rw [h]; rfl

/-- Names left unpaired in a text and in those that its tags enclose, in the order of `nested`. -/
def nestedUnterminated (s : Scanner) (content : String) : List (String × Nat) :=
  (s.scan content).unterminated ++ (s.scan content).found.attach.flatMap fun ⟨m, hm⟩ =>
    match h : m.inner with
    | some inner =>
      have := length_inner_lt hm h
      s.nestedUnterminated inner
    | none => []
termination_by content.length

theorem nestedUnterminated_eq (s : Scanner) (content : String) :
    s.nestedUnterminated content = (s.scan content).unterminated ++
      (s.scan content).found.flatMap fun m => (m.inner.map s.nestedUnterminated).getD [] := by
  rw [nestedUnterminated]
  congr 1
  refine Eq.trans ?_ (flatMap_attach _ _)
  congr 1
  funext ⟨m, hm⟩
  dsimp only
  split
  · next h => rw [h]; rfl
  · next h => rw [h]; rfl

/-- Result of looking for a tag, with the unpaired names of the texts that were looked at. -/
structure Probe where
  hit : Bool
  unterminated : List (String × Nat)
  deriving DecidableEq, Repr

/-- Looks further only while there is no hit. -/
def Probe.orElse (a b : Probe) : Probe :=
  if a.hit then a else ⟨b.hit, a.unterminated ++ b.unterminated⟩

/-- Looks for a tag among those of a text, then in the texts that they enclose, last one first. -/
def probe (s : Scanner) (tag : String) (content : String) : Probe :=
  let scan := s.scan content
  let here : Probe := ⟨scan.found.any (·.name = tag), scan.unterminated⟩
  let inside := scan.found.attach.map fun ⟨m, hm⟩ =>
    match h : m.inner with
    | some inner =>
      have := length_inner_lt hm h
      s.probe tag inner
    | none => ⟨false, []⟩
  inside.foldr (fun p before => before.orElse p) here
termination_by content.length

theorem probe_eq (s : Scanner) (tag content : String) :
    s.probe tag content =
      ((s.scan content).found.map fun m => (m.inner.map (s.probe tag)).getD ⟨false, []⟩).foldr
        (fun p before => before.orElse p)
        ⟨(s.scan content).found.any (·.name = tag), (s.scan content).unterminated⟩ := by
  rw [probe]
  dsimp only
  congr 1
  conv => rhs; rw [← List.attach_map_subtype_val (s.scan content).found, List.map_map]
  congr 1
  funext ⟨m, hm⟩
  dsimp only [Function.comp]
  split
  · next h => rw [h]; rfl
  · next h => rw [h]; rfl

end Shortcode.Scanner
