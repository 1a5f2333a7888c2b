import Pathologist.Lib.Part
import Pathologist.Expansion.Kept

/-!
# What agreeing with the stored lists says

A journal that agrees with a stored list was shown a part of it, in order. Nothing
outside that part would have been taken by a lookup of the run before what it took,
and nothing outside it has the signature of an entry the run keeps back.
-/
open List
namespace Pathologist.Expansion
variable {Name Path Def Rest : Type*}

lemma mem_takeWhile_lt {α : Type*} {l : List (α × ℕ)} (hs : l.Pairwise fun a b => a.2 < b.2)
    {x : α × ℕ} (hx : x ∈ l) {bound : ℕ} (hlt : x.2 < bound) :
    x ∈ l.takeWhile fun a => decide (a.2 < bound) := by
  induction l with
  | nil => simp at hx
  | cons a l ih =>
    obtain ⟨hh, ht⟩ := pairwise_cons.mp hs
    rcases mem_cons.mp hx with rfl | hmem
    · simp [hlt]
    · have ha : a.2 < bound := (hh x hmem).trans hlt
      simp only [List.takeWhile, ha, decide_true, mem_cons]
      exact .inr (ih ht hmem)

lemma pairwise_zipIdx {α : Type*} (l : List α) : l.zipIdx.Pairwise fun a b => a.2 < b.2 := by
  have h : (l.zipIdx.map Prod.snd).Pairwise (· < ·) := by
    rw [zipIdx_map_snd]
    exact pairwise_lt_range'
  exact pairwise_map.mp h

lemma index_unique {list : List (IncludeExpansion Name Path Rest)}
    (hn : (list.map IncludeExpansion.id).Nodup) {m n : ℕ} {e e' : IncludeExpansion Name Path Rest}
    (he : list[m]? = some e) (he' : list[n]? = some e') (hid : e.id = e'.id) : m = n := by
  have hm := (List.getElem?_eq_some_iff.mp he).1
  refine (List.getElem?_inj (by simpa using hm) hn).mp ?_
  simp [he, he', hid]

namespace ExpansionJournal
variable {list : List (IncludeExpansion Name Path Rest)}

lemma positions_spec {last : Option ℕ} {view ps} (h : positions true list last view = some ps) :
    (∀ (i : ℕ) (v : Shown Name Path), view[i]? = some v → ∃ p : ℕ, ps[i]? = some (some p) ∧
      ∃ e, list[p]? = some e ∧ e.id = v.id) ∧
    (∀ (i p : ℕ), ps[i]? = some (some p) → ∀ l, last = some l → l < p) ∧
    ∀ (i k p q : ℕ), i < k → ps[i]? = some (some p) → ps[k]? = some (some q) → p < q := by
  induction view generalizing last ps with
  | nil =>
    simp only [positions, Option.some.injEq] at h
    subst h
    simp
  | cons v view ih =>
    simp only [positions] at h
    cases hp : list.findIdx? (fun e => decide (e.id = v.id)) with
    | none => simp [hp] at h
    | some p =>
      simp only [hp] at h
      split at h
      · simp at h
      rename_i hlast
      obtain ⟨rest, hr, rfl⟩ := Option.map_eq_some_iff.mp h
      obtain ⟨hs, hb, hm⟩ := ih hr
      obtain ⟨hlt, hid, -⟩ := findIdx?_eq_some_iff_getElem.mp hp
      have hfirst : ∀ l, last = some l → l < p := by
        intro l hl
        simpa [hl] using hlast
      refine ⟨?_, ?_, ?_⟩
      · intro i w hw
        cases i with
        | zero =>
          simp only [getElem?_cons_zero, Option.some.injEq] at hw
          subst hw
          exact ⟨p, rfl, list[p], List.getElem?_eq_getElem hlt, by simpa using hid⟩
        | succ i => exact hs i w (by simpa using hw)
      · intro i q hq l hl
        cases i with
        | zero =>
          simp only [getElem?_cons_zero, Option.some.injEq] at hq
          exact hq ▸ hfirst l hl
        | succ i =>
          have := hb i q (by simpa using hq) p rfl
          exact (hfirst l hl).trans this
      intro i k q q' hik hq hq'
      cases k with
      | zero => omega
      | succ k =>
        cases i with
        | zero =>
          simp only [getElem?_cons_zero, Option.some.injEq] at hq
          exact hq ▸ hb k q' (by simpa using hq') p rfl
        | succ i =>
          exact hm i k q q' (by omega) (by simpa using hq) (by simpa using hq')

end ExpansionJournal

variable [DecidableEq Name] [DecidableEq Path]

/-- The run's part in the list of `key`, with the place `f i` of the `i`-th shown
variant in it. -/
structure Agreement (hash : Def → Bool → ℕ) (j : ExpansionJournal Name Path Def Rest)
    (key : ExpansionKey Path) (seen : Seen Name Path)
    (list : List (IncludeExpansion Name Path Rest)) (f : ℕ → ℕ) : Prop where
  room : list.length + (j.own key).length ≤ j.cap
  part : Part (fun e v => e.id = v.id) list seen.view f
  lookups : ∀ l ∈ seen.lookups, ∀ (k : ℕ) e, list[k]? = some e → (∀ i < seen.view.length, f i ≠ k) →
    (∀ n, l.took = some n → k < f n) → j.history.satisfies hash e.deps l.point = false
  own : ∀ (k : ℕ) e, list[k]? = some e → (∀ i < seen.view.length, f i ≠ k) →
    ∀ o ∈ j.own key, o.signature ≠ e.signature

variable {hash : Def → Bool → ℕ} {j : ExpansionJournal Name Path Def Rest}
  {key : ExpansionKey Path} {seen : Seen Name Path}
  {list : List (IncludeExpansion Name Path Rest)}

/-- Exactly what is shown is stored. -/
lemma agreement_of_ids (hr : list.length + (j.own key).length ≤ j.cap)
    (hids : list.map IncludeExpansion.id = seen.view.map Shown.id) :
    Agreement hash j key seen list fun i => i := by
  have hlength : list.length = seen.view.length := by simpa using congrArg List.length hids
  have hall : ∀ (k : ℕ) e, list[k]? = some e → ¬ ∀ i < seen.view.length, i ≠ k := by
    intro k e he hn
    have := (List.getElem?_eq_some_iff.mp he).1
    exact hn k (by omega) rfl
  refine ⟨hr, ⟨fun i k hik _ => hik, ?_⟩, ?_, ?_⟩
  · intro i v hv
    have hi := (List.getElem?_eq_some_iff.mp hv).1
    have := congrArg (·[i]?) hids
    simpa [hv, List.getElem?_eq_getElem (show i < list.length by omega)] using this
  · intro l _ k e he hn
    exact absurd hn (hall k e he)
  · intro k e he hn
    exact absurd hn (hall k e he)

omit [DecidableEq Name] [DecidableEq Path] in
lemma mem_unshown {f} (hn : (list.map IncludeExpansion.id).Nodup)
    (hp : Part (fun e v => e.id = v.id) list seen.view f) {k : ℕ}
    {e} (he : list[k]? = some e) (hnone : ∀ i < seen.view.length, f i ≠ k) :
    (e, k) ∈ ExpansionJournal.unshown seen list := by
  refine mem_filter.mpr ⟨mem_zipIdx_iff_getElem?.mpr he, ?_⟩
  simp only [Seen.shows, Bool.not_eq_true', any_eq_false, decide_eq_true_eq]
  intro v hv hid
  obtain ⟨i, hi, rfl⟩ := getElem_of_mem hv
  obtain ⟨e', he', hid'⟩ := hp.sits i _ (List.getElem?_eq_getElem hi)
  exact hnone i hi (index_unique hn he' he (hid'.trans hid))

lemma agreement_of_agreesAt (hn : (list.map IncludeExpansion.id).Nodup)
    (h : j.agreesAt hash true key seen list = true) : ∃ f, Agreement hash j key seen list f := by
  unfold ExpansionJournal.agreesAt at h
  dsimp only at h
  split at h
  · simp at h
  have hroom : list.length + (j.own key).length ≤ j.cap := by omega
  split at h
  · rename_i hids
    exact ⟨_, agreement_of_ids hroom hids⟩
  cases hps : ExpansionJournal.positions true list none seen.view with
  | none => simp [hps] at h
  | some ps =>
    simp only [hps, Bool.and_eq_true, Bool.not_eq_true', any_eq_false,
      any_eq_true, decide_eq_true_eq, not_exists, not_and] at h
    obtain ⟨ht, hown⟩ := h
    obtain ⟨hs, -, hm⟩ := ExpansionJournal.positions_spec hps
    have hat : ∀ i < seen.view.length, ps[i]? = some (some ((ps[i]?.join).getD 0)) := by
      intro i hi
      obtain ⟨p, hp, -⟩ := hs i _ (List.getElem?_eq_getElem hi)
      simp [hp]
    have hpart : Part (fun e v => e.id = v.id) list seen.view fun i => (ps[i]?.join).getD 0 := by
      refine ⟨?_, ?_⟩
      · intro i k hik hk
        exact hm i k _ _ hik (hat i (hik.trans hk)) (hat k hk)
      · intro i v hv
        obtain ⟨p, hp, hsit⟩ := hs i v hv
        simpa [hp] using hsit
    refine ⟨_, hroom, hpart, ?_, ?_⟩
    · intro l hl k e he hnone hb
      have hmem := mem_unshown hn hpart he hnone
      have hk := (List.getElem?_eq_some_iff.mp he).1
      obtain ⟨bound, hbound, hlt⟩ : ∃ bound,
          l.took.elim (some list.length) (fun n => ps[n]?.join) = some bound ∧ k < bound := by
        cases htook : l.took with
        | none => exact ⟨_, rfl, hk⟩
        | some n =>
          have hlt := hb n htook
          cases hp : ps[n]?.join with
          | none => simp [hp] at hlt
          | some p => exact ⟨p, hp, by simpa [hp] using hlt⟩
      have hnot := ht l hl
      simp only [ExpansionJournal.takenInstead, hbound, any_eq_true, not_exists,
        not_and, Bool.not_eq_true] at hnot
      exact hnot (e, k) (mem_takeWhile_lt ((pairwise_zipIdx list).filter _) hmem hlt)
    · intro k e he hnone o ho heq
      exact hown (e, k) (mem_unshown hn hpart he hnone) o ho heq

end Pathologist.Expansion
