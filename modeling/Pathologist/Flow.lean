import Mathlib.Data.List.Pairwise
import Mathlib.Data.List.Sort
import Mathlib.Data.Prod.Lex
import Mathlib.Data.String.Basic
import Mathlib.Order.WithBot

/-!
# The edges of a flow database, from either end

`FlowDb::edges` numbers the parallel edges of two nodes while it lists the edges of one of them.
Both ends number them alike.
-/
namespace Pathologist.Flow
open List

/-- A path, a line and a column, which is how sites are ordered. -/
abbrev FlowSite := String ×ₗ ℤ ×ₗ ℤ

/-- A row of `flow_edges`. -/
structure EdgeRecord where
  id : ℤ
  srcNode : ℤ
  dstNode : ℤ
  kind : String

/-- A row of `flow_origins`. -/
structure Origin where
  srcNode : ℤ
  dstNode : ℤ
  kind : String
  fileId : ℤ
  line : ℤ
  col : ℤ

/-- A row of `flow_memory_access`. -/
structure Access where
  edgeId : ℤ
  cellNode : Option ℤ

structure FlowDb where
  flowEdges : List EdgeRecord
  flowOrigins : List Origin
  files : List (ℤ × String)
  flowMemoryAccess : List Access

structure EdgeRow where
  src : ℤ
  dst : ℤ
  kind : String
  site : Option FlowSite
deriving DecidableEq

namespace EdgeRow

def ends (row : EdgeRow) : ℤ ×ₗ ℤ := toLex (row.src, row.dst)

/-- Rows are sorted by their ends, their kind and their site, those without a site first. -/
def key (row : EdgeRow) : (ℤ ×ₗ ℤ) ×ₗ String ×ₗ WithBot FlowSite :=
  toLex (row.ends, toLex (row.kind, row.site))

lemma key_injective : Function.Injective key := by
  rintro ⟨a, b, k, s⟩ ⟨a', b', k', s'⟩ h
  cases h
  rfl

instance : LinearOrder EdgeRow := .lift' key key_injective

lemma ends_mono {row row' : EdgeRow} (h : row ≤ row') : row.ends ≤ row'.ends :=
  Prod.Lex.monotone_fst_ofLex h

def sameEdge (row other : EdgeRow) : Bool :=
  (row.src, row.dst, row.kind) = (other.src, other.dst, other.kind)

lemma sameEdge_iff {row other : EdgeRow} :
    row.sameEdge other = true ↔ row.ends = other.ends ∧ row.kind = other.kind := by
  simp only [sameEdge, decide_eq_true_eq, ends, Prod.mk.injEq, toLex_inj]
  tauto

/-- The ends and the kind come first in the order. -/
lemma edge_mono {row row' : EdgeRow} (h : row ≤ row') :
    toLex (row.ends, row.kind) ≤ toLex (row'.ends, row'.kind) := by
  rcases Prod.Lex.toLex_le_toLex.mp h with hlt | ⟨heq, hle⟩
  · exact Prod.Lex.toLex_le_toLex.mpr (.inl hlt)
  · exact Prod.Lex.toLex_le_toLex.mpr (.inr ⟨heq, Prod.Lex.monotone_fst_ofLex hle⟩)

/-- Rows between two rows of one edge are rows of that edge. -/
lemma sameEdge_of_between {a b c : EdgeRow} (hab : a ≤ b) (hbc : b ≤ c) (h : c.sameEdge a = true) :
    b.sameEdge a = true := by
  obtain ⟨hends, hkind⟩ := sameEdge_iff.mp h
  have heq : toLex (b.ends, b.kind) = toLex (a.ends, a.kind) :=
    le_antisymm (by simpa [hends, hkind] using edge_mono hbc) (edge_mono hab)
  exact sameEdge_iff.mpr (Prod.mk.inj heq)

/-- A row without a site comes before the others of its edge. -/
lemma site_eq_none_of_le {a b : EdgeRow} (hab : a ≤ b) (h : a.sameEdge b = true)
    (hb : b.site = none) : a.site = none := by
  obtain ⟨hends, hkind⟩ := sameEdge_iff.mp h
  rcases Prod.Lex.toLex_le_toLex.mp hab with hlt | ⟨-, hle⟩
  · exact absurd hends hlt.ne
  rcases Prod.Lex.toLex_le_toLex.mp hle with hlt | ⟨-, hsite⟩
  · exact absurd hkind hlt.ne
  · rw [hb] at hsite
    exact WithBot.le_bot_iff.mp hsite

end EdgeRow

structure FlowEdge extends EdgeRow where
  ordinal : ℕ
deriving DecidableEq

abbrev EdgeKey := ℤ × ℤ × ℕ

def FlowEdge.id (e : FlowEdge) : EdgeKey := (e.src, e.dst, e.ordinal)

/-- The rows that match, or a missing one. -/
def leftJoin {α : Type} (on : α → Bool) (rows : List α) : List (Option α) :=
  if rows.any on then (rows.filter on).map some else [none]

namespace FlowDb

/-- Each flow edge with each position that its origins record. -/
def sited (db : FlowDb) : List (EdgeRecord × Option FlowSite) :=
  db.flowEdges.flatMap fun e =>
    (leftJoin (fun o : Origin => (o.srcNode, o.dstNode, o.kind) = (e.srcNode, e.dstNode, e.kind))
      db.flowOrigins).flatMap fun o =>
        (leftJoin (fun p => o.any (·.fileId = p.1)) db.files).map fun p =>
          (e, o.bind fun o => p.map fun p => toLex (p.2, toLex (o.line, o.col)))

def edgesSql (db : FlowDb) (col : EdgeRecord → ℤ) (id : ℤ) : List EdgeRow :=
  (db.sited.filter (col ·.1 = id)).map fun (e, site) => ⟨e.srcNode, e.dstNode, e.kind, site⟩

/-- The accesses whose cell is recorded, each with its load or store. -/
def accesses (db : FlowDb) : List (ℤ × EdgeRecord × Option FlowSite) :=
  db.flowMemoryAccess.flatMap fun a => a.cellNode.toList.flatMap fun cell =>
    (db.sited.filter (·.1.id = a.edgeId)).map (cell, ·)

def memorySql (db : FlowDb) (load store : ℤ → EdgeRecord → ℤ) (id : ℤ) : List EdgeRow :=
  (db.accesses.filter fun (cell, e, _) => load cell e = id ∧ e.kind = "load").map
      (fun (cell, e, site) => ⟨cell, e.dstNode, "mem_read", site⟩) ++
    (db.accesses.filter fun (cell, e, _) => store cell e = id ∧ e.kind = "store").map
      fun (cell, e, site) => ⟨e.srcNode, cell, "mem_write", site⟩

def rows (db : FlowDb) (id : ℤ) (outgoing : Bool) : List EdgeRow :=
  if outgoing then
    db.edgesSql (·.srcNode) id ++ db.memorySql (fun cell _ => cell) (fun _ e => e.srcNode) id
  else db.edgesSql (·.dstNode) id ++ db.memorySql (fun _ e => e.dstNode) (fun cell _ => cell) id

end FlowDb

/-- Whether `row` is passed over, after `last` was listed and before `rows`. -/
def skipped (last : Option FlowEdge) (row : EdgeRow) (rows : List EdgeRow) : Bool :=
  let repeated := last.any (·.toEdgeRow = row)
  let siteless := row.site.isNone && rows.head?.any (·.sameEdge row)
  repeated || siteless

/-- The loop over the sorted rows. -/
def list : Option FlowEdge → List EdgeRow → List FlowEdge
  | _, [] => []
  | last, row :: rows =>
    if skipped last row rows then list last rows
    else
      let ordinal := (last.filter (·.ends = row.ends)).elim 0 (·.ordinal + 1)
      ⟨row, ordinal⟩ :: list (some ⟨row, ordinal⟩) rows

def FlowDb.edges (db : FlowDb) (id : ℤ) (outgoing : Bool) : List FlowEdge :=
  list none ((db.rows id outgoing).mergeSort (· ≤ ·))

section Rows
variable {p : ℤ ×ₗ ℤ} {last : Option FlowEdge} {row : EdgeRow} {rows : List EdgeRow}

lemma filter_ends_eq_nil (hs : (row :: rows).Pairwise (· ≤ ·)) (hp : p < row.ends) :
    (row :: rows).filter (·.ends = p) = [] := by
  rw [filter_eq_nil_iff]
  intro r hr he
  have hle : row ≤ r := by
    rcases mem_cons.mp hr with rfl | hr
    exacts [le_rfl, rel_of_pairwise_cons hs hr]
  exact hp.not_ge (of_decide_eq_true he ▸ EdgeRow.ends_mono hle)

lemma skipped_filter (hs : (row :: rows).Pairwise (· ≤ ·)) :
    skipped (last.filter (·.ends = row.ends)) row (rows.filter (·.ends = row.ends)) =
      skipped last row rows := by
  have hlast : (last.filter (·.ends = row.ends)).any (·.toEdgeRow = row) =
      last.any (·.toEdgeRow = row) := by
    cases last <;> grind
  have hhead : (rows.filter (·.ends = row.ends)).head?.any (·.sameEdge row) =
      rows.head?.any (·.sameEdge row) := by
    cases rows with
    | nil => rfl
    | cons r rows =>
      by_cases hr : r.ends = row.ends
      · simp [hr]
      have hle := EdgeRow.ends_mono (rel_of_pairwise_cons hs mem_cons_self)
      have hne : r.sameEdge row = false := by grind [EdgeRow.sameEdge, EdgeRow.ends]
      simp [filter_ends_eq_nil hs.of_cons (hle.lt_of_ne (Ne.symm hr)), hne]
  simp only [skipped, hlast, hhead]

variable (hs : (last.toList.map (·.toEdgeRow) ++ rows).Pairwise (· ≤ ·))
include hs

/-- The loop lists the edges between two nodes as if the rows were theirs alone. -/
lemma filter_list (p : ℤ ×ₗ ℤ) : (list last rows).filter (·.ends = p) =
    list (last.filter (·.ends = p)) (rows.filter (·.ends = p)) := by
  fun_induction list last rows with
  | case1 => simp [list]
  | case2 last row rows hskip ih =>
    rw [ih (hs.sublist (by simp))]
    by_cases hp : row.ends = p
    · subst hp
      rw [filter_cons_of_pos (by simp), list, skipped_filter (pairwise_append.mp hs).2.1,
        if_pos hskip]
    · simp [hp]
  | case3 last row rows hskip ordinal ih =>
    have hrows := (pairwise_append.mp hs).2.1
    rw [filter_cons, ih hrows]
    by_cases hp : row.ends = p
    · subst hp
      rw [filter_cons_of_pos (by simp), list, skipped_filter hrows, if_neg hskip]
      simp [ordinal, Option.filter_some]
    cases hl : last.filter (·.ends = p) with
    | none => simp [hp, Option.filter_some]
    | some e =>
      -- the last edge joins the two nodes, so their rows are all behind
      obtain ⟨rfl, he⟩ := Option.filter_eq_some_iff.mp hl
      have hle := EdgeRow.ends_mono (rel_of_pairwise_cons hs mem_cons_self)
      have hnil := filter_ends_eq_nil hrows ((of_decide_eq_true he ▸ hle).lt_of_ne (Ne.symm hp))
      rw [hnil, (filter_cons_of_neg (by simpa using hp)).symm.trans hnil]
      simp [hp, list]

/-- Edges are listed in order, those between two nodes with rising ordinals. -/
lemma pairwise_list : (last.toList ++ list last rows).Pairwise fun e e' =>
    e.toEdgeRow < e'.toEdgeRow ∧ (e.ends = e'.ends → e.ordinal < e'.ordinal) := by
  fun_induction list last rows with
  | case1 last => cases last <;> simp
  | case2 last row rows hskip ih => exact ih (hs.sublist (by simp))
  | case3 last row rows hskip ordinal ih =>
    have ih := ih (pairwise_append.mp hs).2.1
    cases last with
    | none => exact ih
    | some last =>
      have hlt : last.toEdgeRow < row := by
        refine lt_of_le_of_ne (rel_of_pairwise_cons hs mem_cons_self) fun heq => hskip ?_
        simp [skipped, heq]
      have hnext (h : last.ends = row.ends) : last.ordinal < ordinal := by
        simp [ordinal, Option.filter_some, h]
      refine pairwise_cons.mpr ⟨fun e he => ?_, ih⟩
      rcases mem_cons.mp he with rfl | he
      · exact ⟨hlt, hnext⟩
      obtain ⟨hrow, hord⟩ := rel_of_pairwise_cons ih he
      refine ⟨hlt.trans hrow, fun h => ?_⟩
      have hsame := le_antisymm (EdgeRow.ends_mono hlt.le) (h ▸ EdgeRow.ends_mono hrow.le)
      exact (hnext hsame).trans (hord (hsame.symm.trans h))

omit hs in
/-- A first row says nothing about the rows behind it, being before them. -/
lemma sited_cons {r : EdgeRow} (hs : (row :: rows).Pairwise (· ≤ ·)) (hr : r ∈ rows) :
    (r.site = none → ∀ r' ∈ row :: rows, r'.sameEdge r = true → r'.site = none) ↔
      (r.site = none → ∀ r' ∈ rows, r'.sameEdge r = true → r'.site = none) := by
  simp only [forall_mem_cons]
  refine forall_congr' fun hnone => and_iff_right fun hedge => ?_
  exact EdgeRow.site_eq_none_of_le (rel_of_pairwise_cons hs hr) hedge hnone

omit hs in
/-- A row that is not passed over is new, and its edge has no other row if it has no site. -/
lemma sited_of_not_skipped (hs : (row :: rows).Pairwise (· ≤ ·))
    (hskip : ¬ skipped last row rows = true) (hnone : row.site = none) :
    ∀ r ∈ row :: rows, r.sameEdge row = true → r.site = none := by
  refine forall_mem_cons.mpr ⟨fun _ => hnone, fun r hr hedge => ?_⟩
  cases rows with
  | nil => cases hr
  | cons next rows =>
    refine absurd ?_ hskip
    have hle : next ≤ r := by
      rcases mem_cons.mp hr with rfl | hr
      exacts [le_rfl, rel_of_pairwise_cons hs.of_cons hr]
    have hnext := EdgeRow.sameEdge_of_between (rel_of_pairwise_cons hs mem_cons_self) hle hedge
    simp [skipped, hnone, hnext]

omit hs in
/-- A row that is passed over is the last one listed, or comes again, or its edge has a site. -/
lemma cases_of_skipped (hskip : skipped last row rows = true) :
    row ∈ last.toList.map (·.toEdgeRow) ∨ row ∈ rows ∨
      row.site = none ∧ ∃ r ∈ rows, r.sameEdge row = true ∧ r.site ≠ none := by
  rcases Bool.or_eq_true_iff.mp hskip with hrepeated | hsiteless
  · left
    cases last with
    | none => cases hrepeated
    | some e => simp [← of_decide_eq_true hrepeated]
  obtain ⟨hnone, hhead⟩ := Bool.and_eq_true_iff.mp hsiteless
  rw [Option.isNone_iff_eq_none] at hnone
  cases rows with
  | nil => cases hhead
  | cons r rows =>
    right
    have hedge : r.sameEdge row = true := hhead
    obtain ⟨hends, hkind⟩ := EdgeRow.sameEdge_iff.mp hedge
    cases hr : r.site with
    | none =>
      have heq : r = row := EdgeRow.key_injective (by simp [EdgeRow.key, hends, hkind, hr, hnone])
      exact .inl (heq ▸ mem_cons_self)
    | some site => exact .inr ⟨hnone, r, mem_cons_self, hedge, by simp [hr]⟩

/-- The rows that are listed: all but those without a site whose edge has one. -/
lemma mem_list (r : EdgeRow) :
    r ∈ (last.toList ++ list last rows).map (·.toEdgeRow) ↔
      r ∈ last.toList.map (·.toEdgeRow) ∨ r ∈ rows ∧
        (r.site = none → ∀ r' ∈ rows, r'.sameEdge r = true → r'.site = none) := by
  fun_induction list last rows with
  | case1 => simp
  | case2 last row rows hskip ih =>
    have hsorted := (pairwise_append.mp hs).2.1
    rw [ih (hs.sublist (by simp))]
    by_cases hr : r ∈ rows
    · simp only [sited_cons hsorted hr, hr, mem_cons_of_mem]
    · by_cases heq : r = row
      · subst heq
        have := cases_of_skipped hskip
        grind
      · simp [hr, heq]
  | case3 last row rows hskip ordinal ih =>
    have hsorted := (pairwise_append.mp hs).2.1
    have ih := ih hsorted
    rw [map_append, mem_append, map_cons, ← singleton_append,
      show [row] ++ (list (some ⟨row, ordinal⟩) rows).map (·.toEdgeRow) =
        ((some ⟨row, ordinal⟩ : Option FlowEdge).toList ++
          list (some ⟨row, ordinal⟩) rows).map (·.toEdgeRow) from rfl, ih]
    refine or_congr_right ?_
    by_cases heq : r = row
    · subst heq
      simpa using sited_of_not_skipped hsorted hskip
    · by_cases hr : r ∈ rows
      · simp only [sited_cons hsorted hr]
        simp [hr, heq]
      · simp [hr, heq]

end Rows

namespace FlowDb
variable (db : FlowDb)

/-- The rows of both queries, whatever the node. -/
def allRows : List EdgeRow :=
  db.edgesSql (fun _ => 0) 0 ++ db.memorySql (fun _ _ => 0) (fun _ _ => 0) 0

lemma rows_eq (id : ℤ) (outgoing : Bool) : db.rows id outgoing =
    db.allRows.filter fun r => (bif outgoing then r.src else r.dst) = id := by
  cases outgoing <;>
    simp [rows, allRows, edgesSql, memorySql, filter_map, Function.comp_def]

/-- The edges between two nodes. -/
def parallel (p : ℤ ×ₗ ℤ) : List FlowEdge :=
  list none ((db.allRows.filter (·.ends = p)).mergeSort (· ≤ ·))

variable {db}

lemma mem_edges {id : ℤ} {outgoing : Bool} {e : FlowEdge} : e ∈ db.edges id outgoing ↔
    (bif outgoing then e.src else e.dst) = id ∧ e ∈ db.parallel e.ends := by
  have hsort (l : List EdgeRow) : (l.mergeSort (· ≤ ·)).filter (·.ends = e.ends) =
      (l.filter (·.ends = e.ends)).mergeSort (· ≤ ·) := by
    refine Perm.eq_of_pairwise' ((pairwise_mergeSort' ..).sublist filter_sublist)
      (pairwise_mergeSort' ..) ?_
    exact ((mergeSort_perm ..).filter _).trans (mergeSort_perm ..).symm
  have hrows : (db.rows id outgoing).filter (·.ends = e.ends) =
      (db.allRows.filter (·.ends = e.ends)).filter
        fun _ => (bif outgoing then e.src else e.dst) = id := by
    rw [rows_eq, filter_filter, filter_filter]
    refine filter_congr fun r _ => ?_
    by_cases hr : r.ends = e.ends
    · obtain ⟨hsrc, hdst⟩ := Prod.mk.inj hr
      simp [hr, hsrc, hdst]
    · simp [hr]
  have hmem : e ∈ db.edges id outgoing ↔
      e ∈ (db.edges id outgoing).filter (·.ends = e.ends) := by simp
  rw [hmem, edges, filter_list (pairwise_mergeSort' ..), hsort, hrows]
  by_cases h : (bif outgoing then e.src else e.dst) = id <;> simp [h, parallel, list]

/-- A node's edges are its rows, but for those without a site whose edge has one. -/
lemma mem_edges_iff {id : ℤ} {outgoing : Bool} {row : EdgeRow} :
    (∃ e ∈ db.edges id outgoing, e.toEdgeRow = row) ↔ row ∈ db.rows id outgoing ∧
      (row.site = none → ∀ r ∈ db.rows id outgoing, r.sameEdge row = true → r.site = none) := by
  have hmem := @mem_list none ((db.rows id outgoing).mergeSort (· ≤ ·)) (pairwise_mergeSort' ..) row
  simpa [edges] using hmem

/-- Each edge of the rows is listed with a key, the same at either end, that no other has. -/
theorem edges_keys (db : FlowDb) :
    (∀ id outgoing row, (∃ e ∈ db.edges id outgoing, e.toEdgeRow = row) ↔
      row ∈ db.rows id outgoing ∧
        (row.site = none → ∀ r ∈ db.rows id outgoing, r.sameEdge row = true → r.site = none)) ∧
      (∀ e : FlowEdge, e ∈ db.edges e.src true ↔ e ∈ db.edges e.dst false) ∧
      ∀ id id' outgoing outgoing', ∀ e ∈ db.edges id outgoing, ∀ e' ∈ db.edges id' outgoing',
        (e.id = e'.id ↔ e.toEdgeRow = e'.toEdgeRow) := by
  have hends {a b : FlowEdge} (h : a.id = b.id) : a.ends = b.ends :=
    congrArg (fun k : EdgeKey => toLex (k.1, k.2.1)) h
  have : Std.Symm fun a b : FlowEdge => a.id = b.id ↔ a.toEdgeRow = b.toEdgeRow :=
    ⟨fun a b h => eq_comm.trans (h.trans eq_comm)⟩
  refine ⟨fun id outgoing row => mem_edges_iff, fun e => by simp [mem_edges],
    fun id id' outgoing outgoing' e he e' he' => ?_⟩
  replace he := (mem_edges.mp he).2
  replace he' := (mem_edges.mp he').2
  by_cases h : e.ends = e'.ends
  · have hlist : (db.parallel e.ends).Pairwise fun a b =>
        (a.id = b.id ↔ a.toEdgeRow = b.toEdgeRow) :=
      (@pairwise_list none _ (pairwise_mergeSort' ..)).imp fun hab =>
        iff_of_false (fun hid => (hab.2 (hends hid)).ne (congrArg (·.2.2) hid)) hab.1.ne
    exact hlist.forall_of_forall (by simp) he (h ▸ he')
  · exact iff_of_false (h <| hends ·) (h <| congrArg EdgeRow.ends ·)

/-- A copy with three origins, one of them in a file that is not recorded. -/
def copiedTwice : FlowDb where
  flowEdges := [⟨7, 1, 2, "copy"⟩]
  flowOrigins := [⟨1, 2, "copy", 0, 3, 5⟩, ⟨1, 2, "copy", 0, 9, 1⟩, ⟨1, 2, "copy", 4, 1, 1⟩]
  files := [(0, "a.c")]
  flowMemoryAccess := []

/-- The row of the copy at a position. -/
def copyRow (site : Option (ℤ × ℤ)) : EdgeRow :=
  ⟨1, 2, "copy", site.map fun p => toLex ("a.c", toLex p)⟩

theorem copiedTwice_edges_keys :
    (∃ e ∈ copiedTwice.edges 1 true, ∃ e' ∈ copiedTwice.edges 1 true,
      e.toEdgeRow = copyRow (some (3, 5)) ∧ e'.toEdgeRow = copyRow (some (9, 1)) ∧
        e.id ≠ e'.id ∧ e ∈ copiedTwice.edges 2 false ∧ e' ∈ copiedTwice.edges 2 false) ∧
      copyRow none ∈ copiedTwice.rows 1 true ∧
      ¬ ∃ e ∈ copiedTwice.edges 1 true, e.toEdgeRow = copyRow none := by
  obtain ⟨hlisted, hends, hkeys⟩ := edges_keys copiedTwice
  have hrows : copiedTwice.rows 1 true =
      [copyRow (some (3, 5)), copyRow (some (9, 1)), copyRow none] := by decide
  refine ⟨?_, by simp [hrows], fun h => ?_⟩
  · obtain ⟨e, he, hrow⟩ := (hlisted 1 true (copyRow (some (3, 5)))).mpr ⟨by simp [hrows], nofun⟩
    obtain ⟨e', he', hrow'⟩ := (hlisted 1 true (copyRow (some (9, 1)))).mpr ⟨by simp [hrows], nofun⟩
    refine ⟨e, he, e', he', hrow, hrow', fun hid => ?_, ?_, ?_⟩
    · exact absurd (hrow.symm.trans (((hkeys _ _ _ _ e he e' he').mp hid).trans hrow')) (by decide)
    · simpa [hrow, copyRow] using (hends e).mp (by simpa [hrow, copyRow] using he)
    · simpa [hrow', copyRow] using (hends e').mp (by simpa [hrow', copyRow] using he')
  · have hsited := ((hlisted 1 true (copyRow none)).mp h).2 rfl (copyRow (some (3, 5)))
    exact absurd (hsited (by simp [hrows]) rfl) (by decide)

end FlowDb

end Pathologist.Flow
