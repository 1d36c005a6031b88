import TableTotals.Proofs.Standing
import TableTotals.Report

/-!
Which statistics are recorded under one key.

A key is the name of a table with what is measured behind it, and nothing stands between the
two. What unreplicated sizes have behind the name ends in what replicated sizes have there, so
the unreplicated size of a table and the replicated size of a table named like it with `Un`
behind are recorded under one key. No other two statistics are, and so an engine has a record
for each of its totals exactly where no two of its sized tables are named so.
-/

namespace TableTotals

namespace Measure

/-- The unreplicated size of one table and the replicated size of another one that is named like
it with `Un` behind. -/
def Overlaps (m : Measure) (a : String) (m' : Measure) (b : String) : Prop :=
  m = .unreplicated ∧ m' = .replicated ∧ b = a ++ "Un"

lemma Overlaps.key_eq {m m' : Measure} {a b : String} (h : m.Overlaps a m' b) :
    m.key a = m'.key b := by
  obtain ⟨rfl, rfl, rfl⟩ := h
  exact key_unreplicated a

lemma key_eq_key_iff {m m' : Measure} {a b : String} :
    m.key a = m'.key b ↔ (m = m' ∧ a = b) ∨ m.Overlaps a m' b ∨ m'.Overlaps b m a := by
  constructor
  · intro h
    by_cases hm : m = m'
    · subst hm
      exact .inl ⟨rfl, key_inj.1 h⟩
    · rcases key_eq_key h hm with hover | ⟨hr, hu, ha⟩
      · exact .inr (.inl hover)
      · exact .inr (.inr ⟨hu, hr, ha⟩)
  · rintro (⟨rfl, rfl⟩ | hover | hover)
    · rfl
    · exact hover.key_eq
    · exact hover.key_eq.symm

end Measure

namespace Settings

/-- Each total that there is after a load has a key of its own. -/
def Apart (s : Settings) (names : List String) : Prop :=
  ∀ m m' a b, s.Covers names m a → s.Covers names m' b → Measure.key m a = Measure.key m' b →
    m = m' ∧ a = b

variable {s : Settings} {names : List String}

lemma Apart.unshadowed (h : s.Apart names) : s.Unshadowed := by
  intro name hsized hun
  have hu : s.Covers names .unreplicated name := (covers_size (by decide)).2 hsized
  have hr : s.Covers names .replicated (name ++ "Un") := (covers_size (by decide)).2 hun
  have hsame := h _ _ _ _ hu hr (Measure.key_unreplicated name)
  exact absurd hsame.1 (by decide)

lemma Unshadowed.apart (h : s.Unshadowed) : s.Apart names := by
  have hnot : ∀ {m m' a b}, s.Covers names m a → s.Covers names m' b → ¬m.Overlaps a m' b := by
    rintro m m' a b hm hm' ⟨rfl, rfl, rfl⟩
    have hsized := (covers_size (by decide)).1 hm
    have hun := (covers_size (by decide)).1 hm'
    exact h a hsized hun
  intro m m' a b hm hm' hkey
  rcases Measure.key_eq_key_iff.1 hkey with hsame | hover | hover
  · exact hsame
  · exact absurd hover (hnot hm hm')
  · exact absurd hover (hnot hm' hm)

/-- **Which statistics share a key.** Two keys are equal only for one measure of one table, or for
the unreplicated size of a table and the replicated size of a table named like it with `Un`
behind. So each total of an engine has a key of its own exactly where no two of the tables whose
sizes are asked for are named so, whatever other tables there are. -/
theorem apart_iff_unshadowed (m m' : Measure) (a b : String) (s : Settings)
    (names : List String) :
    (m.key a = m'.key b ↔ (m = m' ∧ a = b) ∨ m.Overlaps a m' b ∨ m'.Overlaps b m a) ∧
      (s.Apart names ↔ s.Unshadowed) :=
  ⟨Measure.key_eq_key_iff, Apart.unshadowed, Unshadowed.apart⟩

/-- Sizes of keys are watched in two tables, one named like the other with `Un` behind. -/
def namesakes : Settings :=
  (countersOnly.watching "x" (.sized .openKeys)).watching "xUn" (.sized .openKeys)

end Settings

def Metadata.ofNamesakes : Metadata :=
  let s := ((∅ : Metadata).create "x" .key).create "xUn" .key
  let s := (s.put "x" [1] (.key (.sample "k" (.copies 3) [7]))).1
  (s.put "xUn" [1] (.key (.sample "k" (.copies 3) [100]))).1

/-- Two statistics are recorded under one key, and what is read back of the first one after a
rescan is the second one. -/
theorem Settings.namesakes_collide :
    ¬(∀ (m m' : Measure) (a b : String), m.key a = m'.key b → m = m' ∧ a = b) ∧
      ¬namesakes.Apart Metadata.ofNamesakes.names ∧
      let source : Source := ⟨.ofNamesakes, {}⟩
      let after := (Engine.new namesakes).rescan source source
        { ledger := { backend := .memory }, clock := 0 }
      after.2 = .ok () ∧ after.1.1.totals.extent? "x" = some ⟨7, 21⟩ ∧
        after.1.2.2.extentOf "x" = .ok ⟨300, 21⟩ := by
  refine ⟨fun h => ?_, fun h => ?_, by decide +kernel, by decide +kernel, by decide +kernel⟩
  · have hsame := h .unreplicated .replicated "x" "xUn" (by decide)
    exact absurd hsame.1 (by decide)
  · have hclash : ¬namesakes.Unshadowed := by decide
    exact hclash h.unshadowed

end TableTotals
