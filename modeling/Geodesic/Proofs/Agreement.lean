import Geodesic.Proofs.Stages

/-!
# One dominance

The dominance of a graph can be asked for on its own or along with normalized scores. Both commands
compute it, each in its own way, and both library functions do once more. They say the same.
-/

namespace Geodesic

/-! ## Reports -/

/-- What a report on the dominance and one on normalized scores have in common. -/
structure DominanceReport.Agrees (r : DominanceReport) (full : BetweennessReport) : Prop where
  dominance : full.dominance = some r.dominance
  directed : full.directed = r.directed
  weighted : full.weighted = r.weighted
  vertices : full.vertices.length = r.vertices
  normalized : full.normalized = true

/-- Both computations fail alike, or both succeed and their results are related. -/
inductive SameEnd {ε α β : Type} (rel : α → β → Prop) : Except ε α → Except ε β → Prop
  | fails (e : ε) : SameEnd rel (.error e) (.error e)
  | succeeds {a : α} {b : β} (h : rel a b) : SameEnd rel (.ok a) (.ok b)

theorem SameEnd.bind {ε α α' β β' : Type} {rel : α → α' → Prop} {rel' : β → β' → Prop}
    {x : Except ε α} {x' : Except ε α'} {f : α → Except ε β} {f' : α' → Except ε β'}
    (h : SameEnd rel x x')
    (hnext : ∀ a a', rel a a' → x = .ok a → x' = .ok a' → SameEnd rel' (f a) (f' a')) :
    SameEnd rel' (x >>= f) (x' >>= f') := by
  cases h with
  | fails e => exact .fails e
  | succeeds h => exact hnext _ _ h rfl rfl

theorem SameEnd.elim {ε α β : Type} {rel : α → β → Prop} {x : Except ε α} {y : Except ε β}
    (h : SameEnd rel x y) :
    (∃ e, x = .error e ∧ y = .error e) ∨ ∃ a b, x = .ok a ∧ y = .ok b ∧ rel a b := by
  cases h with
  | fails e => exact .inl ⟨e, rfl, rfl⟩
  | succeeds h => exact .inr ⟨_, _, rfl, rfl, h⟩

theorem SameEnd.refl {ε α : Type} (x : Except ε α) : SameEnd Eq x x := by
  cases x with
  | error e => exact .fails e
  | ok a => exact .succeeds rfl

section Reports

variable {plan : (n : Nat) → Schedule n} {files : Files} {source : GraphSource}

theorem LabelledGraph.length_vertexScores {l : LabelledGraph} {normalize : Bool}
    {b : Betweenness Float32 Float} (hb : l.betweenness plan normalize = .ok b) :
    (l.vertexScores b.vertex).length = l.list.labels.size := by
  obtain ⟨xs, _, hxs, hsize, -⟩ := numbers?_of_betweenness (mapError_eq_ok_iff.mp hb)
  have hlabels := congrArg List.length (LabelledGraph.vertexScores_columns hxs hsize).1
  rwa [List.length_map, Array.length_toList] at hlabels

/-- The stages of both reports are the same up to the dominance, and that cannot fail. -/
theorem sameEnd_reports (edges : Bool) :
    SameEnd DominanceReport.Agrees (dominanceReport plan files source)
      (betweennessReport plan files source true edges true) := by
  unfold dominanceReport betweennessReport
  refine (SameEnd.refl _).bind fun l _ hl _ _ => ?_
  subst hl
  refine (SameEnd.refl _).bind fun b _ hb hbetweenness _ => ?_
  subst hb
  obtain ⟨d, hd⟩ := LabelledGraph.exists_dominance hbetweenness
  rw [hd]
  exact .succeeds ⟨rfl, rfl, rfl, LabelledGraph.length_vertexScores hbetweenness, rfl⟩

end Reports

/-! ## Runs -/

/-- The settings come first for both commands, and decide about the places of numbers only. -/
theorem sameEnd_commands (plan : (n : Nat) → Schedule n) (s : Surroundings) (options : Options)
    (mode : OutputMode) (source : GraphSource) (edges : Bool) :
    SameEnd (fun told toldAlong => ∃ settings r full,
        Settings.resolve options.config s = .ok settings ∧
        dominanceReport plan s.files source = .ok r ∧
        betweennessReport plan s.files source true edges true = .ok full ∧
        r.Agrees full ∧ told = r.render settings.precision mode ∧
        toldAlong = full.render settings.precision mode)
      (Command.report plan s options mode (.dominance source))
      (Command.report plan s options mode (.betweenness source true false edges true)) := by
  unfold Command.report
  refine (SameEnd.refl _).bind fun settings _ hsame hsettings _ => ?_
  subst hsame
  refine (sameEnd_reports edges).bind fun r full hagrees hr hfull => ?_
  exact .succeeds ⟨settings, r, full, mapError_eq_ok_iff.mp hsettings, hr, hfull, hagrees, rfl, rfl⟩

/-- A run of the command for the dominance alone and one that asks for it along with normalized
scores fail with one error, or tell one dominance; whether scores are normalized otherwise is up to
the settings. Of scores that were computed for a graph, the graph and the scores alone give one
dominance, which is never the zero that stands in for scores that are not numbers. -/
theorem dominance_told_alike :
    (∀ (plan : (n : Nat) → Schedule n) (s : Surroundings) (options : Options)
      (source : GraphSource) (edges : Bool),
      let mode := s.mode options
      let alone : Invocation := ⟨options, .dominance source⟩
      let along : Invocation := ⟨options, .betweenness source true false edges true⟩
      (∃ e, alone.command.report plan s options mode = .error e ∧
        along.command.report plan s options mode = .error e ∧
        alone.run plan s = ⟨1, "", e.failure.render mode⟩ ∧
        along.run plan s = ⟨1, "", e.failure.render mode⟩) ∨
      ∃ settings r full, Settings.resolve options.config s = .ok settings ∧
        dominanceReport plan s.files source = .ok r ∧
        betweennessReport plan s.files source true edges true = .ok full ∧
        r.Agrees full ∧
        alone.run plan s = ⟨0, r.render settings.precision mode, ""⟩ ∧
        along.run plan s = ⟨0, full.render settings.precision mode, ""⟩) ∧
    ∀ (g : Graph) (plan : Schedule g.vertexCount) (weight : Option (EdgeMap Float32 Float))
      (normalize : Bool) (b : Betweenness Float32 Float),
      betweenness g plan weight normalize = .ok b →
      ∃ xs, b.vertex.values.numbers? = some xs ∧ xs.size = g.vertexCount ∧
        b.centralPointDominance = dominance xs ∧
        centralPointDominance g b.vertex = (.ok (dominance xs) : Except (Fault Float) Float) := by
  refine ⟨fun plan s options source edges => ?_, fun g plan weight normalize b =>
    dominance_of_betweenness⟩
  intro mode alone along
  rcases (sameEnd_commands plan s options mode source edges).elim with
    ⟨e, halone, halong⟩ |
      ⟨_, _, halone, halong, settings, r, full, hsettings, hr, hfull, hagrees, rfl, rfl⟩
  · exact .inl ⟨e, halone, halong, Invocation.run_of_error halone, Invocation.run_of_error halong⟩
  · exact .inr ⟨settings, r, full, hsettings, hr, hfull, hagrees, Invocation.run_of_ok halone,
      Invocation.run_of_ok halong⟩

theorem dominance_told_alike_road :
    let g : Graph := ⟨true, 3, #[⟨0, 1⟩, ⟨1, 2⟩]⟩
    let weight : Option (EdgeMap Float32 Float) := some ⟨.int64 #[2, 2]⟩
    let roads := surroundedBy "a b 2\nb c 2\n"
    let options : Options := ⟨false, none, none, some 3⟩
    let source : GraphSource := ⟨"roads", true, true⟩
    (∃ (r : DominanceReport) (full : BetweennessReport), r.Agrees full ∧
      Invocation.run Schedule.sequential roads ⟨options, .dominance source⟩ =
        ⟨0, r.render 6 .text, ""⟩ ∧
      Invocation.run Schedule.sequential roads ⟨options, .betweenness source true false true true⟩ =
        ⟨0, full.render 6 .text, ""⟩) ∧
    ∃ b : Betweenness Float32 Float, betweenness g (Schedule.sequential 3) weight false = .ok b ∧
      centralPointDominance g b.vertex =
        (.ok b.centralPointDominance : Except (Fault Float) Float) := by
  intro g weight roads options source
  obtain ⟨hruns, hmaps⟩ := dominance_told_alike
  have hexit : (Invocation.run Schedule.sequential roads ⟨options, .dominance source⟩).exitCode =
      0 := by decide +kernel
  have hok : (betweenness g (Schedule.sequential 3) weight false :
      Except (Fault Float) (Betweenness Float32 Float)).isOk = true := by decide +kernel
  constructor
  · rcases hruns Schedule.sequential roads options source true with
      ⟨e, -, -, hfails, -⟩ | ⟨settings, r, full, hsettings, -, -, hagrees, halone, halong⟩
    · rw [hfails] at hexit
      cases hexit
    · obtain rfl : Settings.default = settings := Except.ok.inj hsettings
      exact ⟨r, full, hagrees, halone, halong⟩
  · cases hb : (betweenness g (Schedule.sequential 3) weight false :
        Except (Fault Float) (Betweenness Float32 Float)) with
    | error fault =>
        rw [hb] at hok
        cases hok
    | ok b =>
        obtain ⟨xs, -, -, hmethod, hfunction⟩ := hmaps g _ weight false b hb
        exact ⟨b, rfl, by rw [hmethod, hfunction]⟩

end Geodesic
