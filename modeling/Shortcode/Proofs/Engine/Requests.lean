import Shortcode.Config.Setup
import Shortcode.Proofs.Engine.Pass
import Shortcode.Proofs.Tag.Descent
import Shortcode.Proofs.Tag.Mark

namespace Shortcode

namespace Rendering

variable {α β : Type} {text : String}

/-- The work asks for the text if its earlier requests are answered in some way. -/
inductive Asks (text : String) : Rendering α → Prop where
  | here {next : String → Rendering α} : Asks text (.expand text next)
  | report {event : Event} {next : Rendering α} (h : Asks text next) :
    Asks text (.report event next)
  | later {other answer : String} {next : String → Rendering α} (h : Asks text (next answer)) :
    Asks text (.expand other next)

theorem Asks.of_bind {r : Rendering α} {f : α → Rendering β} (h : (r >>= f).Asks text) :
    r.Asks text ∨ ∃ a, (f a).Asks text := by
  change (r.bind f).Asks text at h
  induction r with
  | done a => exact .inr ⟨a, h⟩
  | report event next ih =>
    cases h with
    | report h => exact (ih h).imp_left .report
  | expand other next ih =>
    cases h with
    | here => exact .inl .here
    | later h => exact (ih _ h).imp_left .later

theorem not_asks_pure {a : α} : ¬ (pure a : Rendering α).Asks text := nofun

theorem Asks.of_map {r : Rendering α} {f : α → β} (h : (f <$> r).Asks text) : r.Asks text := by
  rw [map_eq_pure_bind] at h
  rcases h.of_bind with h | ⟨a, h⟩
  · exact h
  · exact absurd h not_asks_pure

theorem Asks.of_mapM {l : List α} {f : α → Rendering β} (h : (l.mapM f).Asks text) :
    ∃ a ∈ l, (f a).Asks text := by
  induction l with
  | nil => exact absurd h not_asks_pure
  | cons a l ih =>
    rw [List.mapM_cons] at h
    rcases h.of_bind with h | ⟨b, h⟩
    · exact ⟨a, List.mem_cons_self, h⟩
    · rcases h.of_bind with h | ⟨bs, h⟩
      · obtain ⟨a', ha', h⟩ := ih h
        exact ⟨a', List.mem_cons_of_mem a ha', h⟩
      · exact absurd h not_asks_pure

theorem not_asks_ofLogged (x : Logged α) : ¬ (ofLogged x).Asks text := by
  obtain ⟨value, log⟩ := x
  induction log with
  | nil => exact not_asks_pure
  | cons event log ih =>
    intro h
    cases h with
    | report h => exact ih h

/-- Work comes to its end if all that it asks for is answered. -/
theorem isSome_run {answer : String → Logged (Option String)} {r : Rendering α}
    (h : ∀ text, r.Asks text → (answer text).value.isSome) : (r.run answer).value.isSome := by
  induction r with
  | done a => rfl
  | report event next ih => exact ih fun text ha => h text (.report ha)
  | expand text next ih =>
    obtain ⟨s, hs⟩ := Option.isSome_iff_exists.1 (h text .here)
    rw [run, Logged.andThen, hs]
    exact ih s fun text ha => h text (.later ha)

/-- Only the answers to what it asks for matter to work. -/
theorem run_congr {answer other : String → Logged (Option String)} {r : Rendering α}
    (h : ∀ text, r.Asks text → answer text = other text) : r.run answer = r.run other := by
  induction r with
  | done a => rfl
  | report event next ih => rw [run, run, ih fun text ha => h text (.report ha)]
  | expand text next ih =>
    rw [run, run, h text .here]
    congr 1
    funext s
    exact ih s fun text ha => h text (.later ha)

end Rendering

/-- A template asks for the enclosed text. -/
theorem Template.inner_of_asks {t : Template} {context : Context} {written : Written}
    {inner : Option String} {text : String}
    (h : (t.handler context written inner).Asks text) : inner = some text := by
  unfold handler at h
  cases inner with
  | none => cases h
  | some inner =>
    dsimp only at h
    split at h
    · cases h with
      | here => rfl
      | later h => cases h
    · cases h

namespace Engine

variable {e : Engine} {content text inner : String}

/-- Every handler fills a template. -/
def Templated (e : Engine) : Prop :=
  ∀ name handler, e.handlers.get? name = some handler → ∃ t : Template, handler = t.handler

theorem Templated.empty (ignoreHtml : Bool) : (Engine.empty ignoreHtml).Templated := nofun

theorem Templated.register (h : e.Templated) {other : Engine} {name : String} {t : Template}
    (hr : (e.register name t.handler).value = .ok other) : other.Templated := by
  rw [Engine.register] at hr
  split at hr
  · cases hr
  · next handlers hh =>
    cases hr
    intro name' handler hget
    rw [Bindings.get?_register hh] at hget
    split at hget
    · exact ⟨t, (Option.some.inj hget).symm⟩
    · exact h name' handler hget

/-- The command line sets up no other engine. -/
theorem Templated.ofConfig {c : Config} (h : c.engine = .ok e) : e.Templated := by
  have each {tags : List (String × TagConfig)} {start : Engine} (hs : start.Templated)
      (h : tags.foldlM (fun e t =>
        (Engine.register e t.1 (Config.TagConfig.toTemplate t.2).handler).value) start = .ok e) :
      e.Templated := by
    induction tags generalizing start with
    | nil =>
      cases h
      exact hs
    | cons t tags ih =>
      rw [List.foldlM_cons] at h
      cases hr : (Engine.register start t.1 (Config.TagConfig.toTemplate t.2).handler).value with
      | error fault =>
        rw [hr] at h
        cases h
      | ok next =>
        rw [hr] at h
        exact ih (hs.register hr) h
  exact each (Templated.empty c.ignoreHtml) h

theorem Templated.inner_of_asks_render (h : e.Templated) {o : Occurrence}
    (ha : (e.render o).Asks text) : o.tag.inner = some text := by
  rw [render_eq] at ha
  split at ha
  · cases ha with
    | report ha => cases ha
  · next handler hget =>
    obtain ⟨t, rfl⟩ := h _ _ hget
    exact Template.inner_of_asks ha.of_map
  · cases ha

/-- A pass asks for texts that matches enclose. -/
theorem Templated.exists_of_asks (h : e.Templated) (ha : (e.expansion content).Asks text) :
    ∃ m ∈ (e.scanner.scan content).found, m.inner = some text := by
  rw [expansion_eq] at ha
  rcases Rendering.Asks.of_bind ha with ha | ⟨_, ha⟩
  · exact absurd ha (Rendering.not_asks_ofLogged _)
  · obtain ⟨o, ho, ha⟩ := ha.of_map.of_mapM
    obtain ⟨m, hm, rfl⟩ := List.mem_map.1 ho
    rw [edit_eq] at ha
    split at ha
    · cases ha
    · exact ⟨m, hm, h.inner_of_asks_render ha.of_map⟩

/-- Texts whose expansion is asked for while the first is expanded, with the depth of requests. -/
inductive Nests (e : Engine) (content : String) : Nat → String → Prop where
  | whole : Nests e content 0 content
  | asked {depth : Nat} {text inner : String} (h : Nests e content depth text)
      (ha : (e.expansion text).Asks inner) : Nests e content (depth + 1) inner

/-- A request is for a text that is shorter by two names and five brackets. -/
theorem Templated.size_of_asks (h : e.Templated) (ha : (e.expansion text).Asks inner) :
    ∃ m ∈ (e.scanner.scan text).found, m.inner = some inner ∧
      inner.utf8ByteSize + (2 * m.name.utf8ByteSize + 5) ≤ text.utf8ByteSize ∧
      7 ≤ 2 * m.name.utf8ByteSize + 5 := by
  obtain ⟨m, hm, hi⟩ := h.exists_of_asks ha
  refine ⟨m, hm, hi, Scanner.utf8ByteSize_inner_add_le hm hi, ?_⟩
  have valid := Bindings.validateName_of_mem_names (Scanner.liesIn_of_mem hm).name_mem
  have nonempty := Text.byteLength_pos (Tag.plain_of_validateName valid).1
  rw [Text.byteLength_toList] at nonempty
  omega

theorem Templated.depth_of_nests (h : e.Templated) {depth : Nat} (hn : e.Nests content depth text) :
    7 * depth + text.utf8ByteSize ≤ content.utf8ByteSize := by
  induction hn with
  | whole => exact Nat.le_of_eq (Nat.zero_add _)
  | asked _ ha ih =>
    obtain ⟨m, -, -, hsize, hname⟩ := h.size_of_asks ha
    omega

/-- Deep enough for its size, a text is expanded. -/
theorem Templated.isSome_expandWithin (h : e.Templated) {depth : Nat}
    (hd : text.utf8ByteSize < 7 * depth) : (e.expandWithin depth text).value.isSome := by
  induction depth generalizing text with
  | zero => exact absurd hd (Nat.not_lt_zero _)
  | succ depth ih =>
    apply Rendering.isSome_run
    intro inner ha
    obtain ⟨m, -, -, hsize, hname⟩ := h.size_of_asks ha
    exact ih (by omega)

/-- A text comes out the same within every depth that its size allows for. -/
theorem Templated.expandWithin_eq (h : e.Templated) {depth : Nat}
    (hd : content.utf8ByteSize / 7 < depth) : e.expandWithin depth content = e.expand content := by
  have enough : content.utf8ByteSize < 7 * (content.utf8ByteSize / 7 + 1) := by omega
  obtain ⟨output, houtput⟩ := Option.isSome_iff_exists.1 (h.isSome_expandWithin enough)
  have limit : content.utf8ByteSize / 7 + 1 ≤ nestingLimit content := by
    have := Text.byteLength_le content.toList
    rw [Text.byteLength_toList, String.length_toList] at this
    rw [nestingLimit]
    omega
  have same {other : Nat} (ho : content.utf8ByteSize / 7 + 1 ≤ other) :
      e.expandWithin other content = e.expandWithin (content.utf8ByteSize / 7 + 1) content := by
    obtain ⟨more, rfl⟩ := Nat.exists_eq_add_of_le ho
    exact expandWithin_add houtput more
  rw [expand, same hd, same limit]

theorem Templated.exists_expand (h : e.Templated) (content : String) :
    ∃ output, (e.expand content).value = some output := by
  apply Option.isSome_iff_exists.1
  rw [← h.expandWithin_eq (Nat.lt_succ_self _)]
  exact h.isSome_expandWithin (by omega)

end Engine

end Shortcode
