import Mathlib.Logic.Relation
import Mathlib.Data.List.Nodup

/-!
# Searches over adjacency lists

A directed graph on the numbers below `n` is the list of its `n` adjacency
lists. The depth-first walks below keep their stack and their marks as explicit
lists, one step of the walk at a time. What they mark is stated with Mathlib's
transitive closures over the edge relation.
-/
namespace Pathologist.Lib.Digraph
open Relation List
variable (pairs : List (ℕ × ℕ)) {fuel : ℕ}

/-- The adjacency lists of a graph, indexed by node. -/
abbrev Adjacency := List (List ℕ)

/-- The neighbours of `x`, in order; none for a node outside the graph. -/
def next (g : Adjacency) (x : ℕ) : List ℕ := g.getD x []

def Edge (g : Adjacency) (x y : ℕ) : Prop := y ∈ next g x

/-- Every neighbour is a node. -/
def InRange (g : Adjacency) : Prop := ∀ x y, Edge g x y → y < g.length

/-- The adjacency lists of a list of edges, each list in the order of the edges. -/
def adjacency (n : ℕ) (pairs : List (ℕ × ℕ)) : Adjacency :=
  pairs.foldl (fun t p => t.modify p.1 (· ++ [p.2])) (List.replicate n [])

lemma length_foldl_modify (t : Adjacency) :
    (pairs.foldl (fun t p => t.modify p.1 (· ++ [p.2])) t).length = t.length := by
  induction pairs generalizing t with
  | nil => rfl
  | cons p ps ih => simp [ih]

@[simp] lemma length_adjacency (n : ℕ) (pairs : List (ℕ × ℕ)) : (adjacency n pairs).length = n := by
  simp [adjacency, length_foldl_modify]

lemma next_foldl_modify {x : ℕ} (t : Adjacency) (hx : x < t.length) :
    next (pairs.foldl (fun t p => t.modify p.1 (· ++ [p.2])) t) x =
      next t x ++ (pairs.filter (fun p => p.1 = x)).map Prod.snd := by
  induction pairs generalizing t with
  | nil => simp
  | cons p ps ih =>
    have hmod : next (t.modify p.1 (· ++ [p.2])) x =
        if p.1 = x then next t x ++ [p.2] else next t x := by
      unfold next
      by_cases h : p.1 = x
      · subst h
        simp [hx]
      · simp [h]
    rw [foldl_cons, ih _ (by simpa using hx), hmod]
    by_cases h : p.1 = x
    · simp [h]
    · simp [h]

/-- A node's list holds the ends of its edges, in order and with repetition. -/
lemma next_adjacency {n x : ℕ} (hx : x < n) :
    next (adjacency n pairs) x = (pairs.filter (fun p => p.1 = x)).map Prod.snd := by
  have hnil : next (List.replicate n []) x = [] := by
    simp [next, hx]
  rw [adjacency, next_foldl_modify pairs _ (by simpa using hx), hnil, nil_append]

variable {y : ℕ}

lemma edge_adjacency {n x : ℕ} {pairs} : Edge (adjacency n pairs) x y ↔ x < n ∧ (x, y) ∈ pairs := by
  unfold Edge
  by_cases hx : x < n
  · simp [next_adjacency pairs hx, hx]
  · have hnil : next (adjacency n pairs) x = [] := by
      simp [next, Nat.not_lt.mp hx]
    simp [hnil, hx]

/-- A Boolean table read with the default `false` outside its range. -/
def marked (seen : List Bool) (x : ℕ) : Bool := seen.getD x false

variable {seen : List Bool}

lemma marked_set {x : ℕ} (hx : x < seen.length) :
    marked (seen.set x true) y = (decide (x = y) || marked seen y) := by
  unfold marked
  by_cases h : x = y
  · subst h
    simp [hx]
  · simp [h]

lemma marked_of_marked_set {x : ℕ} (h : marked (seen.set x true) y = true) :
    x = y ∨ marked seen y = true := by
  by_cases hx : x < seen.length
  · simpa [marked_set hx] using h
  · right
    rwa [set_eq_of_length_le (by omega)] at h

@[simp] lemma marked_replicate (n x : ℕ) : marked (List.replicate n false) x = false := by
  unfold marked
  by_cases h : x < n
  · simp [h]
  · simp [h]

/-- The table of `n` marks with those of `xs` set. -/
def marks (n : ℕ) (xs : List ℕ) : List Bool :=
  xs.foldl (fun t x => t.set x true) (List.replicate n false)

lemma marked_foldl_set (xs : List ℕ) (t : List Bool) (hy : y < t.length) :
    marked (xs.foldl (fun t x => t.set x true) t) y = (decide (y ∈ xs) || marked t y) := by
  induction xs generalizing t with
  | nil => simp
  | cons x xs ih =>
    rw [foldl_cons, ih _ (by simpa using hy)]
    by_cases hx : x < t.length
    · rw [marked_set hx]
      by_cases hxy : x = y
      · simp [hxy]
      · simp [hxy, Ne.symm hxy]
    · have hne : ¬ y = x := by omega
      rw [set_eq_of_length_le (by omega)]
      simp [hne]

lemma marked_marks {n : ℕ} (xs : List ℕ) (hy : y < n) :
    marked (marks n xs) y = decide (y ∈ xs) := by
  rw [marks, marked_foldl_set xs _ (by simpa using hy), marked_replicate, Bool.or_false]

/-- One expansion of the search: every neighbour not seen before is marked and
pushed, and the scan ends at the first that satisfies `stop`. -/
def scan (stop : ℕ → Bool) : List ℕ → List ℕ → List Bool → Bool × List ℕ × List Bool
  | [], stack, seen => (false, stack, seen)
  | y :: ys, stack, seen =>
    if stop y then (true, stack, seen)
    else if marked seen y then scan stop ys stack seen
    else scan stop ys (y :: stack) (seen.set y true)

/-- The search loop, with what it leaves on the stack. Each node is pushed at most once after
the first, so a table of `n` marks is drained within `n + 1` expansions. -/
def searchLoop (nexts : ℕ → List ℕ) (stop : ℕ → Bool) :
    ℕ → List ℕ → List Bool → Bool × List ℕ × List Bool
  | 0, stack, seen => (false, stack, seen)
  | _ + 1, [], seen => (false, [], seen)
  | fuel + 1, x :: stack, seen =>
    match scan stop (nexts x) stack seen with
    | (true, stack', seen') => (true, stack', seen')
    | (false, stack', seen') => searchLoop nexts stop fuel stack' seen'

/-- Nodes reached over one or more steps, marked in `seen`; stops as soon as one
satisfies `stop`, and says whether one did. -/
def search (start : ℕ) (seen : List Bool) (nexts : ℕ → List ℕ) (stop : ℕ → Bool) :
    Bool × List Bool :=
  let r := searchLoop nexts stop (seen.length + 1) [start] seen
  (r.1, r.2.2)

variable {nexts : ℕ → List ℕ} {stop : ℕ → Bool}

lemma count_set {x : ℕ} (hx : x < seen.length) (hm : marked seen x = false) :
    (seen.set x true).count false + 1 = seen.count false := by
  have hget : seen[x] = false := by simpa [marked, hx] using hm
  have hpos : 0 < seen.count false := count_pos_iff.mpr (hget ▸ getElem_mem hx)
  rw [List.count_set hx, hget]
  simp
  omega

/-- What a scan does to the stack and the marks. -/
structure Scanned (stop : ℕ → Bool) (ys stack : List ℕ) (seen : List Bool)
    (out : Bool × List ℕ × List Bool) : Prop where
  size : out.2.2.length = seen.length
  stacked : ∀ x ∈ stack, x ∈ out.2.1
  mem : ∀ x ∈ out.2.1, x ∈ stack ∨ x ∈ ys
  keeps : ∀ x, marked seen x = true → marked out.2.2 x = true
  marks : ∀ x, marked out.2.2 x = true → marked seen x = true ∨ x ∈ ys ∧ x ∈ out.2.1
  stops : out.1 = true → ∃ y ∈ ys, stop y = true
  done : out.1 = false → ∀ y ∈ ys, y < seen.length → stop y = false ∧ marked out.2.2 y = true
  left : (∀ y ∈ ys, y < seen.length) →
    out.2.1.length + out.2.2.count false = stack.length + seen.count false

lemma scan_scanned (stop : ℕ → Bool) (ys stack : List ℕ) (seen : List Bool) :
    Scanned stop ys stack seen (scan stop ys stack seen) := by
  induction ys generalizing stack seen with
  | nil =>
    exact ⟨rfl, fun _ => id, fun _ => .inl, fun _ => id, fun _ => .inl, nofun, by simp,
      fun _ => rfl⟩
  | cons z zs ih =>
    unfold scan
    split_ifs with hstop hm
    · exact ⟨rfl, fun _ => id, fun _ => .inl, fun _ => id, fun _ => .inl,
        fun _ => ⟨z, mem_cons_self, hstop⟩, by simp, fun _ => rfl⟩
    · have hs := ih stack seen
      refine ⟨hs.size, hs.stacked, ?_, hs.keeps, ?_, ?_, ?_, ?_⟩
      · exact fun x hx => (hs.mem x hx).imp_right (mem_cons_of_mem _)
      · exact fun x hx => (hs.marks x hx).imp_right (.imp_left (mem_cons_of_mem _))
      · exact fun hf => (hs.stops hf).imp fun _ h => h.imp_left (mem_cons_of_mem _)
      · intro hf
        exact forall_mem_cons.mpr ⟨fun _ => ⟨by simpa using hstop, hs.keeps z hm⟩, hs.done hf⟩
      · exact fun hys => hs.left (forall_mem_cons.mp hys).2
    have hs := ih (z :: stack) (seen.set z true)
    have hkeep : ∀ x, marked seen x = true → marked (seen.set z true) x = true := by
      intro x hx
      by_cases hz : z < seen.length
      · simp [marked_set hz, hx]
      · rwa [set_eq_of_length_le (by omega)]
    refine ⟨by simpa using hs.size, fun x hx => hs.stacked x (mem_cons_of_mem _ hx), ?_,
      fun x hx => hs.keeps x (hkeep x hx), ?_, ?_, ?_, ?_⟩
    · intro x hx
      rcases hs.mem x hx with hx | hx
      · rcases mem_cons.mp hx with rfl | hx
        · exact .inr mem_cons_self
        · exact .inl hx
      · exact .inr (mem_cons_of_mem _ hx)
    · intro x hx
      rcases hs.marks x hx with hx | hx
      · rcases marked_of_marked_set hx with rfl | hx
        · exact .inr ⟨mem_cons_self, hs.stacked z mem_cons_self⟩
        · exact .inl hx
      · exact .inr (hx.imp_left (mem_cons_of_mem _))
    · exact fun hf => (hs.stops hf).imp fun _ h => h.imp_left (mem_cons_of_mem _)
    · intro hf
      refine forall_mem_cons.mpr ⟨fun hz => ⟨by simpa using hstop, ?_⟩, ?_⟩
      · exact hs.keeps z (by simp [marked_set hz])
      · simpa using hs.done hf
    intro hys
    obtain ⟨hz, hzs⟩ := forall_mem_cons.mp hys
    have hleft := hs.left (by simpa using hzs)
    have hcount := count_set hz (by simpa using hm)
    rw [length_cons] at hleft
    omega

/-- What holds of the stack and passes to neighbours holds of all that a loop marks or stops at. -/
lemma searchLoop_reaches {P Q : ℕ → Prop} {stack : List ℕ} (hstep : ∀ x, P x → ∀ y ∈ nexts x, Q y)
    (hQ : ∀ x, Q x → P x) (hstack : ∀ x ∈ stack, P x) :
    ((searchLoop nexts stop fuel stack seen).1 = true → ∃ y, Q y ∧ stop y = true) ∧
    ∀ y, marked (searchLoop nexts stop fuel stack seen).2.2 y = true →
      marked seen y = true ∨ Q y := by
  induction fuel generalizing stack seen with
  | zero => exact ⟨by simp [searchLoop], fun _ => .inl⟩
  | succ fuel ih =>
    cases stack with
    | nil => exact ⟨by simp [searchLoop], fun _ => .inl⟩
    | cons x stack =>
      obtain ⟨hx, hstack⟩ := forall_mem_cons.mp hstack
      have hs := scan_scanned stop (nexts x) stack seen
      have hmarks : ∀ z, marked (scan stop (nexts x) stack seen).2.2 z = true →
          marked seen z = true ∨ Q z :=
        fun z hm => (hs.marks z hm).imp_right fun h => hstep x hx z h.1
      unfold searchLoop
      split
      · rename_i hscan
        rw [hscan] at hs hmarks
        obtain ⟨y, hy, hst⟩ := hs.stops rfl
        exact ⟨fun _ => ⟨y, hstep x hx y hy, hst⟩, hmarks⟩
      rename_i stack' seen' hscan
      rw [hscan] at hs hmarks
      obtain ⟨hf, hrest⟩ := @ih seen' stack' fun z hz => by
        rcases hs.mem z hz with hz | hz
        · exact hstack z hz
        · exact hQ z (hstep x hx z hz)
      refine ⟨hf, fun z hm => ?_⟩
      rcases hrest z hm with hm | hr
      · exact hmarks z hm
      · exact .inr hr

/-- A search marks, and stops at, only nodes beyond its start. -/
lemma search_reaches {start : ℕ} : ((search start seen nexts stop).1 = true →
      ∃ y, TransGen (fun a b => b ∈ nexts a) start y ∧ stop y = true) ∧
    ∀ y, marked (search start seen nexts stop).2 y = true →
      marked seen y = true ∨ TransGen (fun a b => b ∈ nexts a) start y :=
  searchLoop_reaches (fun _ hx _ hy => .tail' hx hy) (fun _ => TransGen.to_reflTransGen)
    (by simp [ReflTransGen.refl])

lemma searchLoop_never {stack} : (searchLoop nexts (fun _ => false) fuel stack seen).1 = false := by
  by_contra h
  obtain ⟨y, -, hy⟩ := (searchLoop_reaches (P := fun _ => True) (Q := fun _ => True)
    (by simp) (by simp) (by simp)).1 (by simpa using h)
  cases hy

/-- Every neighbour of `x` is marked and does not satisfy `stop`. -/
def Expanded (nexts : ℕ → List ℕ) (stop : ℕ → Bool) (seen : List Bool) (x : ℕ) : Prop :=
  ∀ y ∈ nexts x, stop y = false ∧ marked seen y = true

/-- A loop that does not stop, in range and with enough fuel, empties its stack and has expanded
what was on it and all that it marked. -/
lemma searchLoop_closed {stack} (hr : ∀ x, ∀ y ∈ nexts x, y < seen.length)
    (hf : stack.length + seen.count false ≤ fuel)
    (h : (searchLoop nexts stop fuel stack seen).1 = false) :
    (searchLoop nexts stop fuel stack seen).2.1 = [] ∧
      (∀ x, marked seen x = true → marked (searchLoop nexts stop fuel stack seen).2.2 x = true) ∧
      (∀ x ∈ stack, Expanded nexts stop (searchLoop nexts stop fuel stack seen).2.2 x) ∧
      ∀ x, marked (searchLoop nexts stop fuel stack seen).2.2 x = true →
        marked seen x = true ∨ Expanded nexts stop
          (searchLoop nexts stop fuel stack seen).2.2 x := by
  induction fuel generalizing stack seen with
  | zero =>
    obtain rfl : stack = [] := length_eq_zero_iff.mp (by omega)
    exact ⟨rfl, fun _ => id, by simp, fun _ => .inl⟩
  | succ fuel ih =>
    cases stack with
    | nil => exact ⟨rfl, fun _ => id, by simp, fun _ => .inl⟩
    | cons x stack =>
      have hs := scan_scanned stop (nexts x) stack seen
      unfold searchLoop at h ⊢
      split at h
      · cases h
      rename_i stack₁ seen₁ hscan
      rw [hscan] at hs
      have hleft : stack₁.length + seen₁.count false = _ := hs.left (hr x)
      rw [length_cons] at hf
      obtain ⟨hempty, hk, hstack, hm⟩ := ih (by simpa [hs.size] using hr) (by omega) h
      refine ⟨hempty, fun z hz => hk z (hs.keeps z hz), forall_mem_cons.mpr ⟨?_, ?_⟩, ?_⟩
      · exact fun y hy => (hs.done rfl y hy (hr x y hy)).imp_right (hk y)
      · exact fun z hz => hstack z (hs.stacked z hz)
      intro z hz
      rcases hm z hz with hz | hz
      · exact (hs.marks z hz).imp_right fun h => hstack z h.2
      · exact .inr hz

/-- The loop of a depth-first walk that appends each node when all of its
neighbours were tried. A stack entry holds a node and the place of the next
neighbour to try. -/
def postorderLoop (g : Adjacency) :
    ℕ → List (ℕ × ℕ) → List ℕ → List Bool → Option (List ℕ × List Bool)
  | _, [], post, visited => some (post, visited)
  | 0, _ :: _, _, _ => none
  | fuel + 1, (b, i) :: stack, post, visited =>
    match (next g b)[i]? with
    | some y =>
      if marked visited y then postorderLoop g fuel ((b, i + 1) :: stack) post visited
      else postorderLoop g fuel ((y, 0) :: (b, i + 1) :: stack) post (visited.set y true)
    | none => postorderLoop g fuel stack (post ++ [b]) visited

/-- The nodes `entry` reaches, in postorder of a depth-first walk taking each
node's neighbours in order, and which were reached. -/
def postorder (fuel entry : ℕ) (g : Adjacency) : Option (List ℕ × List Bool) :=
  postorderLoop g fuel [(entry, 0)] [] ((List.replicate g.length false).set entry true)

/-- What every step of the walk keeps: the marked nodes are those on the stack
and those already listed, each once; the neighbours tried so far are marked;
the entry stays at the bottom of the stack. -/
structure PostInv (g : Adjacency) (entry : ℕ) (stack : List (ℕ × ℕ)) (post : List ℕ)
    (visited : List Bool) : Prop where
  size : visited.length = g.length
  nodup : (stack.map Prod.fst ++ post).Nodup
  mem : ∀ x, marked visited x = true ↔ x ∈ stack.map Prod.fst ∨ x ∈ post
  tried : ∀ b i, (b, i) ∈ stack → ∀ j < i, ∀ y, (next g b)[j]? = some y → marked visited y = true
  listed : ∀ b ∈ post, ∀ y ∈ next g b, marked visited y = true
  bottom : (stack = [] ∧ post.getLast? = some entry) ∨ (stack.map Prod.fst).getLast? = some entry

variable {g : Adjacency} {entry b i y : ℕ} {stack : List (ℕ × ℕ)} {post : List ℕ}
  {visited : List Bool}

lemma PostInv.init (he : entry < g.length) :
    PostInv g entry [(entry, 0)] [] ((List.replicate g.length false).set entry true) where
  size := by simp
  nodup := by simp
  mem x := by
    rw [marked_set (by simpa using he)]
    simp [eq_comm]
  tried b i h j hj := by
    obtain ⟨rfl, rfl⟩ : b = entry ∧ i = 0 := by simpa using h
    omega
  listed := by simp
  bottom := by simp

/-- The neighbours tried so far are still marked when that at the cursor is. -/
lemma PostInv.tried_succ (hinv : PostInv g entry ((b, i) :: stack) post visited)
    (hy : (next g b)[i]? = some y) {seen : List Bool} (hm : marked seen y = true)
    (hk : ∀ z, marked visited z = true → marked seen z = true) {b' i' : ℕ}
    (h : (b', i') ∈ (b, i + 1) :: stack) {j : ℕ} (hj : j < i') {z : ℕ}
    (hz : (next g b')[j]? = some z) : marked seen z = true := by
  rcases mem_cons.mp h with h | h
  · obtain ⟨rfl, rfl⟩ : b' = b ∧ i' = i + 1 := by simpa using h
    by_cases hji : j = i
    · subst hji
      obtain rfl : y = z := by simpa [hy] using hz
      exact hm
    · exact hk z (hinv.tried b' i mem_cons_self j (by omega) z hz)
  · exact hk z (hinv.tried b' i' (mem_cons_of_mem _ h) j hj z hz)

/-- The neighbour at the cursor was reached before: only the cursor moves. -/
lemma PostInv.advance (hinv : PostInv g entry ((b, i) :: stack) post visited)
    (hy : (next g b)[i]? = some y) (hm : marked visited y = true) :
    PostInv g entry ((b, i + 1) :: stack) post visited where
  size := hinv.size
  nodup := by simpa using hinv.nodup
  mem := by simpa using hinv.mem
  tried _ _ h _ hj _ hz := hinv.tried_succ hy hm (fun _ => id) h hj hz
  listed := hinv.listed
  bottom := by simpa using hinv.bottom

/-- The neighbour at the cursor is new: it is marked and walked next. -/
lemma PostInv.push (hinv : PostInv g entry ((b, i) :: stack) post visited) (hg : InRange g)
    (hy : (next g b)[i]? = some y) (hm : ¬ marked visited y = true) :
    PostInv g entry ((y, 0) :: (b, i + 1) :: stack) post (visited.set y true) := by
  have hlt : y < visited.length := by
    rw [hinv.size]
    exact hg b y (mem_of_getElem? hy)
  have hkeep : ∀ z, marked visited z = true → marked (visited.set y true) z = true := by
    intro z hz
    simp [marked_set hlt, hz]
  have hnew : y ∉ ((b, i) :: stack).map Prod.fst ++ post := by
    intro h
    exact hm ((hinv.mem y).mpr (mem_append.mp h))
  refine ⟨by simpa using hinv.size, ?_, ?_, ?_, ?_, ?_⟩
  · have := nodup_cons.mpr ⟨hnew, hinv.nodup⟩
    simpa using this
  · intro x
    rw [marked_set hlt, Bool.or_eq_true, hinv.mem x]
    simp [eq_comm, or_assoc]
  · intro b' i' h j hj z hz
    rcases mem_cons.mp h with h | h
    · obtain ⟨rfl, rfl⟩ : b' = y ∧ i' = 0 := by simpa using h
      omega
    · exact hinv.tried_succ hy (by simp [marked_set hlt]) hkeep h hj hz
  · intro c hc z hz
    exact hkeep z (hinv.listed c hc z hz)
  · right
    have hb := hinv.bottom
    simpa using hb

/-- Every neighbour was tried: the node is listed. -/
lemma PostInv.pop (hinv : PostInv g entry ((b, i) :: stack) post visited)
    (hy : (next g b)[i]? = none) : PostInv g entry stack (post ++ [b]) visited where
  size := hinv.size
  nodup := by
    have h := hinv.nodup
    have hp : ([b] ++ (stack.map Prod.fst ++ post)).Perm (stack.map Prod.fst ++ post ++ [b]) :=
      perm_append_comm
    rw [← append_assoc]
    exact hp.nodup_iff.mp h
  mem x := by
    rw [hinv.mem x]
    simp only [map_cons, mem_cons, mem_append, not_mem_nil]
    tauto
  tried b' i' h := hinv.tried b' i' (mem_cons_of_mem _ h)
  listed c hc z hz := by
    rcases mem_append.mp hc with hc | hc
    · exact hinv.listed c hc z hz
    obtain rfl : c = b := by simpa using hc
    obtain ⟨j, hj⟩ := mem_iff_getElem?.mp hz
    have hji : j < i := by
      obtain ⟨hlt, _⟩ := List.getElem?_eq_some_iff.mp hj
      have := List.getElem?_eq_none_iff.mp hy
      omega
    exact hinv.tried c i mem_cons_self j hji z hj
  bottom := by
    have hb := hinv.bottom
    cases stack with
    | nil => left; simpa using hb
    | cons c stack => right; simpa using hb

/-- A finished walk lists each node once, ends its list with the entry, and its
list is closed under taking neighbours. -/
lemma postorder_spec (hg : InRange g) (he : entry < g.length)
    (h : postorder fuel entry g = some (post, visited)) :
    post.Nodup ∧ post.getLast? = some entry ∧ (∀ b ∈ post, ∀ y ∈ next g b, y ∈ post) := by
  suffices hl : ∀ fuel stack post₀ visited₀, PostInv g entry stack post₀ visited₀ →
      postorderLoop g fuel stack post₀ visited₀ = some (post, visited) →
      PostInv g entry [] post visited by
    have hinv := hl _ _ _ _ (PostInv.init he) h
    refine ⟨by simpa using hinv.nodup, by simpa using hinv.bottom, ?_⟩
    intro b hb y hy
    simpa using (hinv.mem y).mp (hinv.listed b hb y hy)
  intro fuel
  induction fuel with
  | zero =>
    intro stack post₀ visited₀ hinv h
    cases stack with
    | nil =>
      cases h
      exact hinv
    | cons => cases h
  | succ fuel ih =>
    intro stack post₀ visited₀ hinv h
    cases stack with
    | nil =>
      cases h
      exact hinv
    | cons top stack =>
      obtain ⟨b, i⟩ := top
      unfold postorderLoop at h
      cases hy : (next g b)[i]? with
      | none =>
        rw [hy] at h
        exact ih _ _ _ (hinv.pop hy) h
      | some y =>
        simp only [hy] at h
        split at h
        · exact ih _ _ _ (hinv.advance hy ‹_›) h
        · exact ih _ _ _ (hinv.push hg hy ‹_›) h

end Pathologist.Lib.Digraph
