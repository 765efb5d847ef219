import Shortcode.Proofs.Engine.Pass

namespace Shortcode

/-- Rendering that keeps a list of the calls it has made. -/
abbrev Traced := StateT (List Call) Rendering

namespace Traced

variable {α β : Type}

def note (call : Call) : Traced Unit := modify (· ++ [call])

theorem run_note (call : Call) (calls : List Call) :
    (note call).run calls = pure ((), calls ++ [call]) := rfl

theorem run_lift (r : Rendering α) (calls : List Call) :
    (liftM r : Traced α).run calls = (fun a => (a, calls)) <$> r := by
  rw [map_eq_pure_bind]
  rfl

/-- Work on a list makes the calls for its members one after the other. -/
theorem run_mapM {f : α → Traced β} {g : α → Rendering β} {made : α → List Call} {l : List α}
    (h : ∀ a ∈ l, ∀ calls, (f a).run calls = (fun b => (b, calls ++ made a)) <$> g a)
    (calls : List Call) :
    (l.mapM f).run calls = (fun bs => (bs, calls ++ l.flatMap made)) <$> l.mapM g := by
  induction l generalizing calls with
  | nil =>
    rw [List.flatMap_nil, List.append_nil]
    rfl
  | cons a l ih =>
    obtain ⟨ha, hl⟩ := List.forall_mem_cons.1 h
    simp only [List.mapM_cons, StateT.run_bind, ha, ih hl, StateT.run_pure, bind_map_left, map_bind,
      map_pure, List.flatMap_cons, List.append_assoc]

end Traced

theorem Chain.run_handOn {α β : Type} (call : Nat → Call) (apply : α → β → β) (index : Nat)
    (callbacks : List α) (value : β) (calls : List Call) :
    (handOn (fun index => Traced.note (call index)) apply index callbacks value).run calls =
      pure (callbacks.foldl (fun current f => apply f current) value,
        calls ++ (List.range' index callbacks.length).map call) := by
  induction callbacks generalizing index value calls with
  | nil =>
    rw [List.length_nil, List.range'_zero, List.map_nil, List.append_nil]
    rfl
  | cons f callbacks ih =>
    rw [handOn, StateT.run_bind, Traced.run_note, pure_bind, ih, List.length_cons,
      List.range'_succ, List.map_cons, List.append_assoc, List.singleton_append, List.foldl_cons]

/-- Each callback of a chain is called once, in the order of the chain. -/
theorem Chain.run_foldM {α β : Type} (chain : Chain α) (call : Nat → Call) (apply : α → β → β)
    (value : β) (calls : List Call) :
    (chain.foldM (fun index => Traced.note (call index)) apply value).run calls =
      pure (chain.fold apply value, calls ++ (List.range chain.size).map call) := by
  rw [foldM, run_handOn, List.range_eq_range', callbacks, List.length_map, fold_eq_foldl]
  rfl

namespace HookPoints

variable (h : HookPoints) (o : Occurrence)

theorem run_overrideM (calls : List Call) :
    (h.overrideM Traced.note o).run calls =
      pure (h.override o, calls ++ (List.range h.preRender.size).map (.before · o)) :=
  Chain.run_foldM ..

theorem run_finishM (output : String) (calls : List Call) :
    (h.finishM Traced.note o output).run calls =
      pure (h.finish o output, calls ++ (List.range h.postRender.size).map (.after · o)) :=
  Chain.run_foldM ..

end HookPoints

namespace Engine

/-- A pass with a note of each call. -/
def tracedExpansion (e : Engine) (content : String) : Traced String :=
  e.expansionM Traced.note content

/-- What is called for a tag: nothing if it is escaped, and else each callback before rendering, the
handler if these leave the text to it, and each callback after rendering. -/
def calls (e : Engine) (o : Occurrence) : List Call :=
  if o.tag.escaped then []
  else
    (List.range e.hooks.preRender.size).map (.before · o) ++
      (if e.hooks.override o = none then [.handler o] else []) ++
      (List.range e.hooks.postRender.size).map (.after · o)

variable {e : Engine} {content : String} {o : Occurrence}

theorem run_renderM (ho : o ∈ e.tagsIn content) (escaped : ¬ o.tag.escaped) (made : List Call) :
    (e.renderM Traced.note o).run made = (fun text => (text, made ++ e.calls o)) <$> e.render o := by
  obtain ⟨handler, hget⟩ := Bindings.exists_get?_of_mem_names (name_mem_of_mem_tagsIn ho)
  rw [renderM, render_eq, hget, StateT.run_bind, HookPoints.run_overrideM, pure_bind, calls,
    if_neg escaped]
  dsimp only
  cases e.hooks.override o with
  | some text =>
    have reports {α : Type} (a : α) : Rendering.report (.overridden o.tag.name) (.done a) =
        (fun _ => a) <$> Rendering.report (.overridden o.tag.name) (.done ()) := rfl
    rw [if_neg (Option.some_ne_none text), List.append_nil]
    simp only [StateT.run_bind, Traced.run_lift, HookPoints.run_finishM, bind_pure_comp,
      reports (e.hooks.finish o text), Functor.map_map, List.append_assoc]
  | none =>
    rw [if_pos rfl]
    simp only [StateT.run_bind, Traced.run_note, Traced.run_lift, HookPoints.run_finishM,
      pure_bind, bind_pure_comp, Functor.map_map, List.append_assoc]

theorem run_editM (ho : o ∈ e.tagsIn content) (made : List Call) :
    (e.editM Traced.note o).run made = (fun edit => (edit, made ++ e.calls o)) <$> e.edit o := by
  rw [editM, edit_eq]
  split
  · next escaped =>
    rw [calls, if_pos escaped, List.append_nil]
    rfl
  · next escaped =>
    rw [StateT.run_map, run_renderM ho escaped, Functor.map_map, Functor.map_map]

theorem run_tracedExpansion (e : Engine) (content : String) :
    (e.tracedExpansion content).run [] =
      (fun text => (text, (e.tagsIn content).flatMap e.calls)) <$> e.expansion content := by
  have edits : ((occurrences content (e.scanner.scan content).found).mapM
      (e.editM Traced.note)).run [] = _ :=
    Traced.run_mapM (fun o (ho : o ∈ e.tagsIn content) => run_editM ho) []
  rw [tracedExpansion, expansionM, expansion_eq]
  simp only [StateT.run_bind, Traced.run_lift, bind_map_left, StateT.run_map, edits,
    Functor.map_map, map_bind, List.nil_append]
  rfl

/-- Expansion is one splice. The text is put together from what stands between the top-level
matches and what stands in their place, as deep as handlers may nest their requests, and a text that
is had within some depth is the same within a greater one. Which matches there are is up to the names
and the text alone. For each in turn that is not escaped, every callback of both chains is called
once, the handler only without an override, and nothing is called for any other tag. -/
theorem expand_splices (e : Engine) (content : String) :
    (e.expand content).value =
      ((e.tagsIn content).mapM (e.place (e.expandWithin (nestingLimit content - 1)) content)).map
        (Text.concatenation content) ∧
    (∀ depth, (e.expandWithin (depth + 1) content).value =
      ((e.tagsIn content).mapM (e.place (e.expandWithin depth) content)).map
        (Text.concatenation content)) ∧
    (∀ depth output, (e.expandWithin depth content).value = some output →
      ∀ more, e.expandWithin (depth + more) content = e.expandWithin depth content) ∧
    (∀ other : Engine, other.handlers.names = e.handlers.names →
      other.ignoreHtml = e.ignoreHtml → other.tagsIn content = e.tagsIn content) ∧
    (e.tracedExpansion content).run [] =
      (fun text => (text, (e.tagsIn content).flatMap e.calls)) <$> e.expansion content ∧
    (∀ o ∈ e.tagsIn content, o.tag.name ∈ e.handlers.names) ∧
    ((e.tagsIn content).Pairwise fun a b => a.tag.stop ≤ b.tag.start) ∧
    (e.handlers.names = [] ∨ '[' ∉ content.toList → e.expand content = ⟨some content, []⟩) := by
  refine ⟨by rw [expand_eq_expandWithin, value_expandWithin], fun _ => value_expandWithin ..,
    fun _ _ h more => expandWithin_add h more, fun _ => tagsIn_congr, run_tracedExpansion e content,
    fun _ => name_mem_of_mem_tagsIn, pairwise_tagsIn e content, expand_of_scan_empty⟩

/-- A handler that asks for the text it encloses, an override by an empty text, an escaped tag and
escape brackets that stand alone. -/
theorem expand_splices_reentrant :
    (let bold : Handler := fun _ _ inner => do
      return "<" ++ (← Rendering.ask (inner.getD "")) ++ ">"
     let hooks := (HookPoints.empty.onPreRender 0 fun _ o =>
      if o.tag.name = "i" then some "" else none).onPostRender 0 fun text _ => text ++ "."
     let e : Engine := ⟨⟨[("b", bold), ("i", fun c _ _ => pure c.tag)], by decide, by decide⟩,
      hooks, false⟩
     (e.expand "[[b]] [[b x]y[i][/b] [i]] [u]").value = some "[b] [<y.>. .] [u]") := by
  intro bold hooks e
  obtain ⟨value, -⟩ := e.expand_splices "[[b]] [[b x]y[i][/b] [i]] [u]"
  rw [value]
  decide +kernel

end Engine

end Shortcode
