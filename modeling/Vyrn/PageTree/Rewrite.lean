import Vyrn.PageTree.Mutate

/-!
# Rewritten rows — what splicing, merging and batching leave behind

A rewrite replaces a stretch of a row of siblings by new siblings. `Linked.splice` says when the row
stays a row; everything here is an instance of it.

Main results: `mergeUnderfullChildren_spec`, `applyNode_spec`, `rebuildPath_spec`.
-/

namespace Vyrn

open SortedMap List

variable {ordered : Bool} {kids run new : Kids} {entries : List Entry}
  {mutations own : List PreparedMutation} {h id : Nat} {pages pages' pages'' : Pages}
  {apply : Rewriter} {stored : Stored} {key : Bytes}

/-! ## Splicing a row -/

section Splice

variable {P : Nat → List Entry → Prop} {a run b kids : Kids}

/-- **SPLICE**: a stretch of a row may be replaced by a row that fits the gap. -/
theorem Linked.splice (hl : Linked P (a ++ run ++ b)) (hk : Linked P kids)
    (hleft : ∀ x ∈ a, ∀ e ∈ x.2, ∀ kid ∈ kids, e.1 < kid.1.minKey)
    (hright : ∀ e ∈ contents kids, ∀ y ∈ b, e.1 < y.1.minKey) :
    Linked P (a ++ kids ++ b) := by
  obtain ⟨har, hb, hcross⟩ := linked_append.mp hl
  obtain ⟨ha, _⟩ := linked_append.mp har
  refine linked_append.mpr ⟨linked_append.mpr ⟨ha, hk, fun x hx y hy e he =>
    hleft x hx e he y hy⟩, hb, ?_⟩
  intro x hx y hy e he
  rcases mem_append.mp hx with hxa | hxk
  · exact hcross x (mem_append_left run hxa) y hy e he
  · exact hright e (mem_contents.mpr ⟨x, hxk, he⟩) y hy

/-- The separator of a row's first sibling is at or below all of the row. -/
theorem Linked.head_le {x : NodeRef × List Entry} (hl : Linked P (x :: kids))
    (hne : x.2 ≠ []) : ∀ e ∈ contents (x :: kids), x.1.minKey ≤ e.1 := by
  intro e he
  obtain ⟨⟨_, _, hx⟩, _, hapart⟩ := linked_cons.mp hl
  obtain ⟨y, hy, hey⟩ := mem_contents.mp he
  rcases mem_cons.mp hy with rfl | hy
  · exact hx e hey
  · obtain ⟨e0, he0⟩ := exists_mem_of_ne_nil _ hne
    exact ((hx e0 he0).trans (hapart y hy e0 he0).le).trans
      (hl.above y (mem_cons_of_mem _ hy) e hey)

end Splice

theorem contents_ne_nil (hl : Linked (Node ordered h pages) kids) (hne : kids ≠ []) :
    contents kids ≠ [] := by
  cases kids with
  | nil => exact absurd rfl hne
  | cons x kids =>
    rw [contents_cons]
    exact append_ne_nil_of_left_ne_nil (linked_cons.mp hl).1.1.ne_nil _

/-! ## Rewriting a run of siblings -/

theorem readRun_leaf (hl : Linked (Node ordered 0 pages) run) :
    readRun readLeaf pages (run.map Prod.fst) = .ok (contents run) := by
  induction run with
  | nil => rfl
  | cons x run ih =>
    obtain ⟨⟨hx, _⟩, hrest, _⟩ := linked_cons.mp hl
    rw [map_cons, readRun, readLeaf_node hx, ok_bind, ih hrest]
    rfl

/-- The children of adjacent pages form one row. -/
theorem readRun_internal (hd : h < maxTreeDepth) {run : Kids}
    (hl : Linked (Node ordered (h + 1) pages) run) :
    ∃ kids, readRun readInternalChildren pages (run.map Prod.fst) = .ok (kids.map Prod.fst) ∧
      Linked (Node ordered h pages) kids ∧ contents kids = contents run ∧
      ∀ kid ∈ kids, firstKey (contents run) ≤ kid.1.minKey := by
  induction run with
  | nil => exact ⟨[], rfl, linked_nil, rfl, by simp⟩
  | cons x run ih =>
    obtain ⟨⟨hx, _⟩, hrest, hapart⟩ := linked_cons.mp hl
    obtain ⟨slots, first, cells, head, tail, hp, hr⟩ := hx.row
    obtain ⟨others, hread, hothers, hcontents, hlow⟩ := ih hrest
    have hown : readInternalChildren pages x.1.pageId
        = .ok ((head :: tail).map Prod.fst) := by
      rw [readInternalChildren, readPage_ok.mpr hp, ok_bind]
      exact decodeInternal_row hr hd
    -- everything of `x` lies below every child of the pages after it
    have hbelow : ∀ e ∈ x.2, ∀ kid ∈ others, e.1 < kid.1.minKey := by
      intro e he kid hk
      have hne := contents_ne_nil hothers (ne_nil_of_mem hk)
      rw [hcontents] at hne
      obtain ⟨e', he', heq⟩ := firstKey_mem hne
      obtain ⟨y, hy, hey⟩ := mem_contents.mp he'
      have hlt : e.1 < firstKey (contents run) :=
        heq ▸ (hapart y hy e he).trans_le (hrest.above y hy e' hey)
      exact hlt.trans_le (hlow kid hk)
    refine ⟨(head :: tail) ++ others, ?_, ?_, ?_, ?_⟩
    · rw [map_cons, readRun, hown, ok_bind, hread, map_append]
      rfl
    · refine linked_append.mpr ⟨hr.linked, hothers, fun y hy kid hk e he => ?_⟩
      refine hbelow e ?_ kid hk
      rw [hr.entries_eq]
      exact mem_contents.mpr ⟨y, hy, he⟩
    · rw [contents_append, ← hr.entries_eq, hcontents, contents_cons]
    · intro kid hk
      rw [contents_cons, firstKey_append hx.ne_nil]
      rcases mem_append.mp hk with hk | hk
      · exact hr.firstKey_le kid hk
      · obtain ⟨e, he, heq⟩ := firstKey_mem hx.ne_nil
        exact heq ▸ (hbelow e he kid hk).le

theorem rewriteSiblings_leaf {x : NodeRef} (hx : Node ordered 0 pages x.pageId entries)
    (rest : List NodeRef) : rewriteSiblings pages (x :: rest)
      = readRun readLeaf pages (x :: rest) >>= writeLeafLevel pages := by
  obtain ⟨slots, cells, hpage, _⟩ := hx
  rw [rewriteSiblings, readPage_ok.mpr hpage, ok_bind]

theorem rewriteSiblings_internal {x : NodeRef} (hx : Node ordered (h + 1) pages x.pageId entries)
    (rest : List NodeRef) : rewriteSiblings pages (x :: rest)
      = readRun readInternalChildren pages (x :: rest) >>= writeInternalLevel pages := by
  obtain ⟨slots, first, cells, hpage, _⟩ := hx
  rw [rewriteSiblings, readPage_ok.mpr hpage, ok_bind]

/-- **REWRITE**: a run of siblings re-emitted through the level writers holds the same. -/
theorem rewriteSiblings_spec (hp : pages ≠ []) (hd : h ≤ maxTreeDepth) (hne : run ≠ [])
    (hl : Linked (Node ordered h pages) run) :
    ∃ kids pages', rewriteSiblings pages (run.map Prod.fst) = .ok (kids.map Prod.fst, pages') ∧
      pages <+: pages' ∧ Linked (Node ordered h pages') kids ∧ contents kids = contents run ∧
      ∀ kid ∈ kids, firstKey (contents run) ≤ kid.1.minKey := by
  obtain ⟨x, rest, rfl⟩ := exists_cons_of_ne_nil hne
  have hx := hl.holds x mem_cons_self
  have hcne := contents_ne_nil hl hne
  have hsorted := hl.sorted (fun _ _ hn => hn.sorted)
  cases h with
  | zero =>
    have hstored : ∀ e ∈ contents (x :: rest), StoredEntry e := by
      intro e he
      obtain ⟨y, hy, hey⟩ := mem_contents.mp he
      exact (hl.holds y hy).storedEntry e hey
    obtain ⟨kids, pages', hwrite, hgrow, hlinked, hcontents, _, hmin⟩ :=
      writeLeafLevel_spec ordered hp hcne hsorted hstored
    refine ⟨kids, pages', ?_, hgrow, hlinked, hcontents, ?_⟩
    · rw [map_cons, rewriteSiblings_leaf hx, ← map_cons, readRun_leaf hl, ok_bind, hwrite]
    · intro kid hk
      obtain ⟨e, he, heq⟩ := hmin kid hk
      exact heq ▸ firstKey_le hsorted e he
  | succ h =>
    obtain ⟨grandkids, hread, hgrand, hcontents, hlow⟩ := readRun_internal hd hl
    have hgne : grandkids ≠ [] := by
      rintro rfl
      exact hcne hcontents.symm
    obtain ⟨kids, pages', hwrite, hgrow, hlinked, hkids, _, hmin⟩ :=
      writeInternalLevel_spec ordered hp hgne hgrand
    refine ⟨kids, pages', ?_, hgrow, hlinked, hkids.trans hcontents, ?_⟩
    · rw [map_cons, rewriteSiblings_internal hx, ← map_cons, hread, ok_bind, hwrite]
    · intro kid hk
      obtain ⟨g, hg, heq⟩ := hmin kid hk
      exact heq ▸ hlow g hg

/-! ## Merging underfull pages -/

theorem pageUsedBytes_node (hn : Node ordered h pages id entries) :
    ∃ used, pageUsedBytes pages id = .ok used := by
  cases h with
  | zero =>
    obtain ⟨slots, cells, hp, _⟩ := hn
    rw [pageUsedBytes, readPage_ok.mpr hp, ok_bind]
    dsimp only
    split_ifs <;> exact ⟨_, rfl⟩
  | succ h =>
    obtain ⟨slots, first, cells, hp, _⟩ := hn
    rw [pageUsedBytes, readPage_ok.mpr hp, ok_bind]
    dsimp only
    split_ifs <;> exact ⟨_, rfl⟩

/-- Every child can be measured, and stays in its place. -/
theorem measure_spec {children : List (NodeRef × Bool)}
    (hn : ∀ child ∈ children, ∃ entries, Node ordered h pages child.1.pageId entries) :
    ∃ measured, measure pages children = .ok measured ∧
      measured.map Prod.fst = children.map Prod.fst := by
  induction children with
  | nil => exact ⟨[], rfl, rfl⟩
  | cons child children ih =>
    obtain ⟨node, rewritten⟩ := child
    obtain ⟨measured, hmeasured, hmap⟩ := ih (fun c hc => hn c (mem_cons_of_mem _ hc))
    cases rewritten with
    | false =>
      refine ⟨(node, none) :: measured, ?_, by rw [map_cons, map_cons, hmap]⟩
      rw [measure, hmeasured]
      rfl
    | true =>
      obtain ⟨entries, hnode⟩ := hn (node, true) mem_cons_self
      obtain ⟨used, hused⟩ := pageUsedBytes_node hnode
      refine ⟨(node, used) :: measured, ?_, by rw [map_cons, map_cons, hmap]⟩
      rw [measure, hused, ok_bind, hmeasured]
      rfl

theorem neighborFits_node (neighbor : Option NodeRef)
    (hn : ∀ node ∈ neighbor, ∃ entries, Node ordered h pages node.pageId entries) (own : Nat)
    (right : NodeRef) : ∃ fits, neighborFits pages own neighbor right = .ok fits ∧
      (fits = true → neighbor.isSome) := by
  cases neighbor with
  | none => exact ⟨false, rfl, by simp⟩
  | some node =>
    obtain ⟨_, hnode⟩ := hn node rfl
    obtain ⟨fits, hfits⟩ : ∃ fits, pairFits pages own node right = .ok fits := by
      obtain ⟨used, hused⟩ := pageUsedBytes_node hnode
      rw [pairFits, hused, ok_bind]
      cases used <;> exact ⟨_, rfl⟩
    exact ⟨fits, hfits, fun _ => rfl⟩

/-- What `absorb` picks is a stretch of the row around the child. -/
theorem absorb_spec (own : Nat) {child : NodeRef} {merged : List NodeRef}
    {rest : List (NodeRef × Option Nat)} (hn : ∀ node ∈ merged ++ child :: rest.map Prod.fst,
      ∃ entries, Node ordered h pages node.pageId entries) :
    ∃ choice, absorb pages own child merged rest = .ok choice ∧
      ∀ picked, choice = some picked → picked.2.1 ≠ [] ∧
        picked.1 ++ picked.2.1 ++ picked.2.2.map Prod.fst
          = merged ++ child :: rest.map Prod.fst := by
  obtain ⟨right, hright, hnext⟩ := neighborFits_node (rest.head?.map Prod.fst)
    (fun node hnode => hn node (by
      obtain ⟨next, hnext, rfl⟩ := Option.map_eq_some_iff.mp hnode
      simp [mem_map_of_mem (mem_of_head? hnext)]))
    own ((rest.head?.map Prod.fst).getD child)
  obtain ⟨left, hleft, hlast⟩ := neighborFits_node merged.getLast?
    (fun node hnode => hn node (mem_append_left _ (mem_of_getLast? hnode))) own child
  rw [absorb, hright, ok_bind]
  cases right with
  | true =>
    cases rest with
    | nil => exact absurd (hnext rfl) (by simp)
    | cons next rest =>
      refine ⟨_, rfl, ?_⟩
      intro picked hpicked
      obtain rfl := Option.some.inj hpicked
      exact ⟨by simp, by simp⟩
  | false =>
    simp only [Bool.false_eq_true, if_false, pure_eq_ok, ok_bind, hleft]
    cases left with
    | false => exact ⟨none, rfl, by simp⟩
    | true =>
      refine ⟨_, rfl, ?_⟩
      intro picked hpicked
      obtain rfl := Option.some.inj hpicked
      obtain ⟨last, hl⟩ := Option.isSome_iff_exists.mp (hlast rfl)
      refine ⟨by simp, ?_⟩
      conv_rhs => rw [← dropLast_append_getLast? last hl]
      simp [hl]

/-- A row with the same contents and no separator below the old ones. -/
structure Refits (ordered : Bool) (h : Nat) (pages : Pages)
    (kids : List (NodeRef × List Entry)) (pages' : Pages)
    (out : List (NodeRef × List Entry)) : Prop where
  grows : pages <+: pages'
  linked : Linked (Node ordered h pages') out
  same : contents out = contents kids
  low : ∀ low, (∀ kid ∈ kids, low ≤ kid.1.minKey) → ∀ kid ∈ out, low ≤ kid.1.minKey

theorem Refits.refl (hl : Linked (Node ordered h pages) kids) :
    Refits ordered h pages kids pages kids :=
  ⟨prefix_refl pages, hl, rfl, fun _ hlow => hlow⟩

/-- Rewriting a stretch of a row refits the row. -/
theorem rewriteSiblings_refits {a b : Kids} (hp : pages ≠ []) (hd : h ≤ maxTreeDepth)
    (hne : run ≠ []) (hl : Linked (Node ordered h pages) (a ++ run ++ b)) :
    ∃ kids pages', rewriteSiblings pages (run.map Prod.fst) = .ok (kids.map Prod.fst, pages') ∧
      Refits ordered h pages (a ++ run ++ b) pages' (a ++ kids ++ b) := by
  obtain ⟨har, _, hcross⟩ := linked_append.mp hl
  obtain ⟨_, hrun, hleft⟩ := linked_append.mp har
  obtain ⟨kids, pages', hwrite, hgrow, hlinked, hcontents, hlow⟩ :=
    rewriteSiblings_spec hp hd hne hrun
  obtain ⟨e0, he0, hfirst⟩ := firstKey_mem (contents_ne_nil hrun hne)
  obtain ⟨y0, hy0, hey0⟩ := mem_contents.mp he0
  have hfirstLow : y0.1.minKey ≤ firstKey (contents run) := hfirst ▸ hrun.above y0 hy0 e0 hey0
  refine ⟨kids, pages', hwrite, hgrow, ?_, ?_, ?_⟩
  · refine (hl.grow hgrow).splice hlinked ?_ ?_
    · intro x hx e he kid hk
      exact ((hleft x hx y0 hy0 e he).trans_le hfirstLow).trans_le (hlow kid hk)
    · intro e he y hy
      rw [hcontents] at he
      obtain ⟨x, hx, hex⟩ := mem_contents.mp he
      exact hcross x (mem_append_right a hx) y hy e hex
  · rw [contents_append, contents_append, hcontents, contents_append, contents_append]
  · intro low hbound kid hk
    rcases mem_append.mp hk with hk | hk
    · rcases mem_append.mp hk with hk | hk
      · exact hbound kid (by simp [hk])
      · exact ((hbound y0 (by simp [hy0])).trans hfirstLow).trans (hlow kid hk)
    · exact hbound kid (by simp [hk])

/-- Merging small siblings keeps what the row holds. -/
theorem mergeLoop_spec (hd : h ≤ maxTreeDepth) (fuel : Nat) (merged : List NodeRef)
    (rest : List (NodeRef × Option Nat)) (hp : pages ≠ [])
    (hl : Linked (Node ordered h pages) kids)
    (hmap : kids.map Prod.fst = merged ++ rest.map Prod.fst) :
    ∃ out pages', mergeLoop fuel pages merged rest = .ok (out.map Prod.fst, pages') ∧
      Refits ordered h pages kids pages' out := by
  induction fuel generalizing pages merged rest kids with
  | zero => exact ⟨kids, pages, by rw [mergeLoop, hmap], Refits.refl hl⟩
  | succ fuel ih =>
    -- a rewritten stretch, followed by the rest of the pass
    have hrewrite : ∀ (left run : List NodeRef) (right : List (NodeRef × Option Nat)),
        run ≠ [] → left ++ run ++ right.map Prod.fst = merged ++ rest.map Prod.fst →
        ∃ out pages', (do
            let written ← rewriteSiblings pages run
            mergeLoop fuel written.2 (left ++ written.1) right) = .ok (out.map Prod.fst, pages') ∧
          Refits ordered h pages kids pages' out := by
      intro left run right hne heq
      rw [← heq] at hmap
      obtain ⟨ar, b, rfl, har, hb⟩ := map_eq_append_iff.mp hmap
      obtain ⟨a, r, rfl, ha, hr⟩ := map_eq_append_iff.mp har
      have hrne : r ≠ [] := by
        rintro rfl
        exact hne hr.symm
      obtain ⟨nodes, pages1, hwrite, href⟩ := rewriteSiblings_refits hp hd hrne hl
      obtain ⟨out, pages2, hloop, hout⟩ := ih (left ++ nodes.map Prod.fst) right
        (href.grows.ne_nil hp) href.linked
        (by rw [map_append, map_append, ha, hb])
      refine ⟨out, pages2, ?_, href.grows.trans hout.grows, hout.linked,
        hout.same.trans href.same, fun low hlow => hout.low low (href.low low hlow)⟩
      rw [← hr, hwrite, ok_bind]
      exact hloop
    cases rest with
    | nil =>
      refine ⟨kids, pages, ?_, Refits.refl hl⟩
      rw [mergeLoop, hmap, map_nil, append_nil]
    | cons item rest =>
      obtain ⟨child, used⟩ := item
      have hkeep : ∃ out pages', mergeLoop fuel pages (merged ++ [child]) rest
          = .ok (out.map Prod.fst, pages') ∧ Refits ordered h pages kids pages' out :=
        ih _ _ hp hl (by rw [hmap]; simp)
      rw [mergeLoop]
      split_ifs with hu
      · dsimp only
        split_ifs with hrun
        · have hnodes : ∀ node ∈ merged ++ child :: rest.map Prod.fst,
              ∃ entries, Node ordered h pages node.pageId entries := by
            intro node hnode
            rw [map_cons] at hmap
            rw [← hmap] at hnode
            obtain ⟨kid, hk, rfl⟩ := mem_map.mp hnode
            exact ⟨kid.2, hl.holds kid hk⟩
          obtain ⟨choice, habsorb, hpick⟩ := absorb_spec (used.getD 0) hnodes
          rw [habsorb, ok_bind]
          cases choice with
          | none => exact hkeep
          | some picked =>
            obtain ⟨hne, heq⟩ := hpick picked rfl
            exact hrewrite picked.1 picked.2.1 picked.2.2 hne heq
        · refine hrewrite merged _ _ (by simp) ?_
          rw [append_assoc, map_cons, cons_append, ← map_append, takeWhile_append_dropWhile]
      · exact hkeep

/-- **MERGE**: merging underfull pages refits the row. -/
theorem mergeUnderfullChildren_spec (hd : h ≤ maxTreeDepth) {children : List (NodeRef × Bool)}
    (hp : pages ≠ []) (hl : Linked (Node ordered h pages) kids)
    (hmap : kids.map Prod.fst = children.map Prod.fst) :
    ∃ out pages', mergeUnderfullChildren pages children = .ok (out.map Prod.fst, pages') ∧
      Refits ordered h pages kids pages' out := by
  rw [mergeUnderfullChildren]
  split_ifs with hskip
  · exact ⟨kids, pages, by rw [hmap], Refits.refl hl⟩
  · have hnodes : ∀ child ∈ children, ∃ entries, Node ordered h pages child.1.pageId entries := by
      intro child hc
      have hmem : child.1 ∈ kids.map Prod.fst := hmap ▸ mem_map_of_mem hc
      obtain ⟨kid, hk, heq⟩ := mem_map.mp hmem
      exact ⟨kid.2, heq ▸ hl.holds kid hk⟩
    obtain ⟨measured, hmeasured, hsame⟩ := measure_spec hnodes
    rw [hmeasured, ok_bind]
    exact mergeLoop_spec hd _ _ _ hp hl (by rw [hmap, hsame, nil_append])

/-! ## Rewriting a subtree for a batch -/

/-- What a rewrite of `entries` for `mutations` leaves: a row that holds the updated map. Its
    separators are at or above every key in `floor` that is at or below the mutations. -/
structure Rewritten (ordered : Bool) (h : Nat) (floor : Bytes → Prop) (pages : Pages)
    (entries : List Entry) (mutations : List PreparedMutation) (existed : Nat → Bool)
    (kids : List (NodeRef × List Entry)) (existed' : Nat → Bool) (pages' : Pages) : Prop where
  grows : pages <+: pages'
  linked : Linked (Node ordered h pages') kids
  holds : contents kids = updateAll entries (updates mutations)
  low : ∀ low, floor low → (∀ m ∈ mutations, low ≤ m.key) → ∀ kid ∈ kids, low ≤ kid.1.minKey
  records : Records entries mutations existed existed'

/-- A rewriter that does its work on every subtree of height `h`. -/
def Rewrites (ordered : Bool) (h : Nat) (apply : Rewriter) : Prop :=
  ∀ {pages : Pages} {id : Nat} {entries : List Entry} {mutations : List PreparedMutation}
    (existed : Nat → Bool), pages ≠ [] → Node ordered h pages id entries →
    Prepared mutations → ∃ kids existed' pages',
      apply pages id mutations existed = .ok (kids.map Prod.fst, existed', pages') ∧
      Rewritten ordered h (fun low => ∀ e ∈ entries, low ≤ e.1) pages entries mutations existed
        kids existed' pages'

/-- A binding of the updated map comes from a mutation or was there before. -/
theorem mem_updated {e : Entry} (he : e ∈ updateAll entries (updates mutations)) :
    (∃ m ∈ mutations, m.key = e.1 ∧ m.value = some e.2) ∨ e ∈ entries := by
  rcases mem_updateAll he with hu | hm
  · obtain ⟨m, hm, heq⟩ := mem_map.mp hu
    exact .inl ⟨m, hm, congrArg Prod.fst heq, congrArg Prod.snd heq⟩
  · exact .inr hm

/-- A rewrite of two parts of a row, cut at `key`, is a rewrite of the row. -/
theorem Rewritten.append {floor floor' : Bytes → Prop} {left right : List Entry}
    {others : List PreparedMutation} {existed existed' existed'' : Nat → Bool} {kids' : Kids}
    (key : Bytes) (h1 : Rewritten ordered h floor pages left own existed kids existed' pages')
    (h2 : Rewritten ordered h floor' pages' right others existed' kids' existed'' pages'')
    (hindexes : (own ++ others).Pairwise (fun a b => a.index ≠ b.index))
    (hleft : ∀ e ∈ left, e.1 < key) (hright : ∀ e ∈ right, key ≤ e.1)
    (hown : ∀ m ∈ own, m.key < key) (hothers : ∀ m ∈ others, key ≤ m.key) (hfloor : floor' key) :
    Rewritten ordered h (fun low => floor low ∧ floor' low) pages (left ++ right)
      (own ++ others) existed (kids ++ kids') existed'' pages'' := by
  refine ⟨h1.grows.trans h2.grows, ?_, ?_, ?_, ?_⟩
  · refine linked_append.mpr ⟨h1.linked.grow h2.grows, h2.linked, ?_⟩
    intro x hx y hy e he
    have hmem := mem_contents.mpr ⟨x, hx, he⟩
    rw [h1.holds] at hmem
    have hlt : e.1 < key := by
      rcases mem_updated hmem with ⟨m, hm, heq, _⟩ | hm
      · exact heq ▸ hown m hm
      · exact hleft e hm
    exact hlt.trans_le (h2.low key hfloor hothers y hy)
  · rw [contents_append, h1.holds, h2.holds, updates, updates, updates, map_append]
    refine (updateAll_append key hleft hright ?_ ?_).symm
    · intro u hu
      obtain ⟨m, hm, rfl⟩ := mem_map.mp hu
      exact hown m hm
    · intro u hu
      obtain ⟨m, hm, rfl⟩ := mem_map.mp hu
      exact hothers m hm
  · rintro low ⟨hlow, hlow'⟩ hmut kid hk
    rcases mem_append.mp hk with hk | hk
    · exact h1.low low hlow (fun m hm => hmut m (mem_append_left others hm)) kid hk
    · exact h2.low low hlow' (fun m hm => hmut m (mem_append_right own hm)) kid hk
  · refine Records.append hindexes h1.records h2.records ?_ ?_
    · intro m hm
      exact lookup_append_left (fun e he => (hown m hm).trans_le (hright e he))
    · intro m hm
      exact lookup_append_right (fun e he => (hleft e he).trans_le (hothers m hm))

/-- The nodes of a flagged row. -/
def flagged (out : List ((NodeRef × List Entry) × Bool)) : List (NodeRef × Bool) :=
  out.map (fun x => (x.1.1, x.2))

/-- One child rewritten holds its map updated. -/
theorem applyChild_spec (happly : Rewrites ordered h apply) {child : NodeRef × List Entry}
    (existed : Nat → Bool) (hp : pages ≠ []) (hchild : Linked (Node ordered h pages) [child])
    (hown : Prepared own) :
    ∃ out existed' pages', applyChild apply pages child.1 own existed
        = .ok (flagged out, existed', pages') ∧
      Rewritten ordered h (fun low => low ≤ child.1.minKey) pages child.2 own existed
        (out.map Prod.fst) existed' pages' := by
  rw [applyChild]
  by_cases hnil : own = []
  · subst hnil
    rw [if_pos rfl]
    refine ⟨[(child, false)], existed, pages, rfl, prefix_refl pages, hchild, ?_, ?_,
      Records.nil _ _⟩
    · exact append_nil _
    · exact fun low hlow _ => forall_mem_singleton.mpr hlow
  · obtain ⟨hnode, _, habove⟩ := linked_singleton.mp hchild
    obtain ⟨kids, existed', pages', hcall, hrew⟩ := happly existed hp hnode hown
    have hmap : (kids.map (fun kid => (kid, true))).map Prod.fst = kids := by
      rw [map_map]
      exact map_id kids
    refine ⟨kids.map (fun kid => (kid, true)), existed', pages', ?_, hrew.grows, ?_, ?_, ?_,
      hrew.records⟩
    · rw [if_neg hnil, hcall, flagged]
      simp
    · rw [hmap]
      exact hrew.linked
    · rw [hmap]
      exact hrew.holds
    · intro low hlow hmut kid hk
      rw [hmap] at hk
      exact hrew.low low (fun e he => hlow.trans (habove e he)) hmut kid hk

/-- **CHILDREN OF A BATCH**: a row rewritten child by child holds its map updated. -/
theorem applyChildren_spec (happly : Rewrites ordered h apply) (existed : Nat → Bool)
    (hp : pages ≠ []) (hne : kids ≠ []) (hl : Linked (Node ordered h pages) kids)
    (hprep : Prepared mutations) :
    ∃ out existed' pages', applyChildren apply pages (kids.map Prod.fst) mutations existed
        = .ok (flagged out, existed', pages') ∧
      Rewritten ordered h (fun low => ∀ kid ∈ kids, low ≤ kid.1.minKey) pages (contents kids)
        mutations existed (out.map Prod.fst) existed' pages' := by
  induction kids generalizing pages mutations existed with
  | nil => exact absurd rfl hne
  | cons x rest ih =>
    obtain ⟨hx, hrest, hapart⟩ := linked_cons.mp hl
    cases rest with
    | nil =>
      obtain ⟨out, existed', pages', hcall, hrew⟩ :=
        applyChild_spec happly existed hp hl hprep
      refine ⟨out, existed', pages', ?_, hrew.grows, hrew.linked, ?_, ?_, ?_⟩
      · rw [map_cons, map_nil, applyChildren]
        dsimp only [ownMutations]
        rw [hcall, ok_bind]
        rw [applyChildren, ok_bind, append_nil]
        rfl
      · rw [hrew.holds, contents_cons, contents_nil, append_nil]
      · intro low hlow hmut
        exact hrew.low low (hlow x mem_cons_self) hmut
      · rw [contents_cons, contents_nil, append_nil]
        exact hrew.records
    | cons y ys =>
      -- the separator right of `x` cuts both the map and the mutations
      obtain ⟨own, others, hown, -, hothers, rfl, hlt, hge⟩ :=
        BinarySearch.cut_below PreparedMutation.key hprep.sorted y.1.minKey
      have hown : ownMutations (y.1 :: ys.map Prod.fst) (own ++ others) = own := hown
      obtain ⟨hownPrep, hothersPrep⟩ := hprep.append
      obtain ⟨out1, existed1, pages1, hcall1, hrew1⟩ :=
        applyChild_spec happly existed hp (linked_singleton.mpr hx) hownPrep
      obtain ⟨out2, existed2, pages2, hcall2, hrew2⟩ :=
        ih existed1 (hrew1.grows.ne_nil hp) (by simp)
          (hrest.grow hrew1.grows) hothersPrep
      have hfloor : ∀ kid ∈ y :: ys, y.1.minKey ≤ kid.1.minKey := forall_mem_cons.mpr
        ⟨le_rfl, fun kid hk => ((pairwise_cons.mp hrest.separators).1 kid hk).le⟩
      have hrew := hrew1.append y.1.minKey hrew2 hprep.indexes
        (hapart y mem_cons_self)
        (hrest.head_le (hrest.holds y mem_cons_self).ne_nil) hlt hge hfloor
      refine ⟨out1 ++ out2, existed2, pages2, ?_, hrew.grows, ?_, ?_, ?_, hrew.records⟩
      · rw [map_cons, map_cons, applyChildren, hown]
        rw [hcall1, ok_bind]
        dsimp only
        rw [hothers, ← map_cons, hcall2, ok_bind]
        exact congrArg (fun out => Except.ok (out, existed2, pages2)) map_append.symm
      · rw [map_append]
        exact hrew.linked
      · rw [map_append]
        exact hrew.holds
      · intro low hlow
        rw [map_append]
        exact hrew.low low ⟨hlow x mem_cons_self, fun kid hk => hlow kid (mem_cons_of_mem _ hk)⟩

/-- A leaf under mutations, written as a level of leaves. -/
theorem applyLeaf_spec (ordered : Bool) (existed : Nat → Bool) (hp : pages ≠ [])
    (hs : Sorted entries) (hstored : ∀ e ∈ entries, StoredEntry e) (hprep : Prepared mutations)
    (hne : (mergeEntries entries mutations existed).1 ≠ []) :
    ∃ kids pages', writeLeafLevel pages (mergeEntries entries mutations existed).1
        = .ok (kids.map Prod.fst, pages') ∧
      Rewritten ordered 0 (fun low => ∀ e ∈ entries, low ≤ e.1) pages entries mutations existed
        kids (mergeEntries entries mutations existed).2 pages' := by
  obtain ⟨hmerge, hrec⟩ := mergeEntries_spec existed hs hprep
  have hvalid : ∀ e ∈ (mergeEntries entries mutations existed).1, StoredEntry e := by
    intro e he
    rw [hmerge] at he
    rcases mem_updated he with ⟨m, hm, hkey, hvalue⟩ | hm
    · have := hprep.stored m hm e.2 hvalue
      rwa [hkey] at this
    · exact hstored e hm
  obtain ⟨kids, pages', hwrite, hgrow, hlinked, hcontents, _, hmin⟩ :=
    writeLeafLevel_spec ordered hp hne (hmerge ▸ hs.updateAll _) hvalid
  refine ⟨kids, pages', hwrite, hgrow, hlinked, hcontents.trans hmerge, ?_, hrec⟩
  intro low hlow hmut kid hk
  obtain ⟨e, he, heq⟩ := hmin kid hk
  rw [hmerge] at he
  rw [heq]
  rcases mem_updated he with ⟨m, hm, hkey, _⟩ | hm
  · exact hkey ▸ hmut m hm
  · exact hlow e hm

/-- **BATCH REWRITE**: a subtree within the depth bound, rewritten for a batch, holds its map
    updated. It keeps its height, but for a root that collapsed onto its only child. -/
theorem applyNode_spec {fuel : Nat} (isRoot : Bool) (existed : Nat → Bool) (hf : h < fuel)
    (hmax : fuel ≤ maxTreeDepth) (hp : pages ≠ []) (hn : Node ordered h pages id entries)
    (hprep : Prepared mutations) :
    ∃ h' kids existed' pages', applyNode fuel isRoot pages id mutations existed
        = .ok (kids.map Prod.fst, existed', pages') ∧
      (isRoot = false → h' = h) ∧ Rewritten ordered h' (fun low => ∀ e ∈ entries, low ≤ e.1)
        pages entries mutations existed kids existed' pages' := by
  induction h generalizing fuel isRoot pages id entries mutations existed with
  | zero =>
    obtain ⟨fuel, rfl⟩ := exists_fuel hf
    have hs := hn.sorted
    have hstored := hn.storedEntry
    obtain ⟨slots, cells, hpage, hcells, _, _, hfit⟩ := hn
    have hdecode : decodeLeaf pages id cells = .ok entries :=
      decodeLeaf_holds (forall₂_mono_view hcells) hfit
    rw [applyNode, readPage_ok.mpr hpage, ok_bind]
    dsimp only
    rw [hdecode, ok_bind]
    split_ifs with hnil
    · obtain ⟨hmerge, hrec⟩ := mergeEntries_spec existed hs hprep
      exact ⟨0, [], _, pages, rfl, fun _ => rfl, prefix_refl pages, linked_nil,
        (hnil.symm.trans hmerge), by simp, hrec⟩
    · obtain ⟨kids, pages', hwrite, hrew⟩ :=
        applyLeaf_spec ordered existed hp hs hstored hprep hnil
      refine ⟨0, kids, _, pages', ?_, fun _ => rfl, hrew⟩
      simp only [pure_eq_ok]
      rw [hwrite]
      rfl
  | succ h ih =>
    obtain ⟨fuel, rfl⟩ := exists_fuel hf
    obtain ⟨slots, first, cells, head, tail, hpage, hr⟩ := hn.row
    have hrewrites : Rewrites ordered h (applyNode fuel false) := by
      intro pages id entries mutations existed hp hn hprep
      obtain ⟨_, kids, existed', pages', hcall, heq, hrew⟩ := ih false existed
        (Nat.lt_of_succ_lt_succ hf) (Nat.le_of_succ_le hmax) hp hn hprep
      rw [heq rfl] at hrew
      exact ⟨kids, existed', pages', hcall, hrew⟩
    obtain ⟨out, existed', pages1, hcall, hrew⟩ :=
      applyChildren_spec hrewrites existed hp (by simp) hr.linked hprep
    have hfloor : ∀ low, (∀ e ∈ entries, low ≤ e.1) →
        ∀ kid ∈ head :: tail, low ≤ kid.1.minKey := by
      intro low hlow kid hk
      obtain ⟨e, he, heq⟩ := firstKey_mem hn.ne_nil
      exact (heq ▸ hlow e he).trans (hr.firstKey_le kid hk)
    rw [← hr.entries_eq] at hrew
    rw [applyNode, readPage_ok.mpr hpage, ok_bind]
    dsimp only
    rw [decodeInternal_row hr (by omega), ok_bind, hcall, ok_bind]
    by_cases hnil : out = []
    · -- every child became empty, and so did the subtree
      subst hnil
      exact ⟨h + 1, [], existed', pages1, rfl, fun _ => rfl, hrew.grows, linked_nil,
        hrew.holds, by simp, hrew.records⟩
    · have hp1 := hrew.grows.ne_nil hp
      obtain ⟨merged, pages2, hmerge, href⟩ := mergeUnderfullChildren_spec (by omega) hp1
        hrew.linked (show _ = (flagged out).map Prod.fst by rw [flagged, map_map, map_map]; rfl)
      have hholds : contents merged = updateAll entries (updates mutations) :=
        href.same.trans hrew.holds
      have hlow : ∀ low, (∀ e ∈ entries, low ≤ e.1) → (∀ m ∈ mutations, low ≤ m.key) →
          ∀ kid ∈ merged, low ≤ kid.1.minKey := fun low hle hmut =>
        href.low low (hrew.low low (hfloor low hle) hmut)
      have hfl : flagged out ≠ [] := by
        rw [flagged]
        simpa using hnil
      rw [if_neg hfl]
      simp only [pure_eq_ok]
      rw [hmerge, ok_bind]
      split_ifs with hcollapse
      · -- a root with one child left gives way to it
        exact ⟨h, merged, existed', pages2, rfl,
          fun hfalse => absurd hcollapse.1 (by rw [hfalse]; simp),
          hrew.grows.trans href.grows, href.linked, hholds, hlow, hrew.records⟩
      · have hmne : merged ≠ [] := by
          rintro rfl
          exact contents_ne_nil hrew.linked
            (fun hmap => hnil (map_eq_nil_iff.mp hmap)) href.same.symm
        obtain ⟨parents, pages3, hwrite, hgrow, hlinked, hcontents, _, hmin⟩ :=
          writeInternalLevel_spec ordered (href.grows.ne_nil hp1) hmne href.linked
        refine ⟨h + 1, parents, existed', pages3, ?_, fun _ => rfl,
          (hrew.grows.trans href.grows).trans hgrow, hlinked, hcontents.trans hholds, ?_,
          hrew.records⟩
        · rw [hwrite]
          rfl
        · intro low hle hmut parent hpar
          obtain ⟨kid, hk, heq⟩ := hmin parent hpar
          exact heq ▸ hlow low hle hmut kid hk

/-! ## Rewriting along a path -/

theorem Node.leafBytes_le (hn : Node ordered 0 pages id entries) :
    (entries.map (fun e => leafCellSize e + slotSize)).sum ≤ 4300 := by
  obtain ⟨slots, cells, _, hcells, _, _, hfit⟩ := hn
  have hcount : cells.length ≤ 122 := leafCount_le hfit
  have hsum : (cells.map LeafCell.bytes).sum ≤ 4056 := by
    rw [cellsBytes, headerSize, pageSize] at hfit
    omega
  rw [leafBytes_eq hcells] at hsum
  have hlen := hcells.length_eq
  have htotal : (entries.map (fun e => leafCellSize e + slotSize)).sum
      = (entries.map leafCellSize).sum + entries.length * 2 := by
    rw [sum_map_add, map_const', sum_replicate]
    rfl
  omega

/-- One more entry splits a leaf into four pages at most. -/
theorem leafChunks_put_le (hn : Node ordered 0 pages id entries)
    (hstored : StoredEntry (key, stored)) : (leafChunks (put key stored entries)).length ≤ 4 := by
  have hold := hn.leafBytes_le
  have hnew := leafCellSize_le hstored
  have hput := sum_put_le (fun e : Entry => leafCellSize e + slotSize) key stored entries
  have hpages : ((leafChunks (put key stored entries)).length - 1) * 4057
      ≤ ((put key stored entries).map
          (fun e => (leafCellSize e + slotSize) + (leafCellSize e + slotSize))).sum :=
    @Packing.pages_mul_le Entry _ _ pageSize (fun e => leafCellSize e + slotSize) headerSize 4057
      (fun _ => rfl) rfl (put key stored entries)
  rw [sum_map_add] at hpages
  rw [slotSize] at *
  omega

theorem rowBytes_le_length (kids : Kids) :
    rowBytes kids ≤ kids.length * 1047 := by
  induction kids with
  | nil => exact Nat.le_refl 0
  | cons x kids ih =>
    have := internalCellSize_le x.1.minKey
    rw [rowBytes, map_cons, sum_cons, ← rowBytes, slotSize, length_cons]
    omega

/-- Four children in place of one split an internal page into three pages at most. -/
theorem rowChunks_splice_le {pre post : Kids} {kid : NodeRef × List Entry}
    (hbytes : rowBytes (pre ++ kid :: post) ≤ 5489) (hnew : new.length ≤ 4) :
    (rowChunks (pre ++ new ++ post)).length ≤ 4 := by
  have happend : ∀ a b : Kids,
      rowBytes (a ++ b) = rowBytes a + rowBytes b := by
    intro a b
    rw [rowBytes, rowBytes, rowBytes, map_append, sum_append]
  have hpages : ((rowChunks (pre ++ new ++ post)).length - 1) * 4049
      ≤ rowBytes (pre ++ new ++ post) :=
    @Packing.pages_mul_le (NodeRef × List Entry) _ _ pageSize (fun _ => 0) (headerSize + 8) 4049
      (fun _ => rfl) rfl (pre ++ new ++ post)
  have hn := rowBytes_le_length new
  have hk : rowBytes (kid :: post) = rowBytes [kid] + rowBytes post := happend [kid] post
  rw [happend, happend] at hpages
  rw [happend, hk] at hbytes
  omega

/-- **PATH REWRITE**: a tree whose leaf was replaced holds the map with the key put, once the
    path above the leaf is rewritten. -/
theorem rebuildPath_spec {leaf : Nat} {leafEntries : List Entry} {path : List (Nat × Nat)}
    (hpath : OnPath ordered pages key h id entries leaf leafEntries path) {pages1 : Pages}
    (hp : pages ≠ []) (hgrow : pages <+: pages1) (hnew : Linked (Node ordered 0 pages1) new)
    (hcontents : contents new = put key stored leafEntries)
    (hlow : ∀ kid ∈ new, ∃ e ∈ put key stored leafEntries, kid.1.minKey = e.1)
    (hfour : new.length ≤ 4) :
    ∃ kids pages2, rebuildPath pages1 (new.map Prod.fst) path
        = .ok (kids.map Prod.fst, pages2) ∧ pages1 <+: pages2 ∧
      Linked (Node ordered h pages2) kids ∧ contents kids = put key stored entries ∧
      kids.length ≤ 4 ∧
      ∀ low, (∀ e ∈ entries, low ≤ e.1) → low ≤ key → ∀ kid ∈ kids, low ≤ kid.1.minKey := by
  induction hpath with
  | here =>
    refine ⟨new, pages1, rfl, prefix_refl pages1, hnew, hcontents, hfour, ?_⟩
    intro low hle hkey kid hk
    obtain ⟨e, he, heq⟩ := hlow kid hk
    rw [heq]
    rcases mem_put he with rfl | hm
    · exact hkey
    · exact hle e hm
  | @down h _ _ _ _ pre kid post hread hbytes hfirst hl hroute _ ih =>
    obtain ⟨kids, pages2, hcall, hgrow2, hkids, hput, hlen, hmin⟩ := ih hcontents hlow
    obtain ⟨_, hright, hpre⟩ := linked_append.mp hl
    obtain ⟨⟨_, _, habove⟩, hpost, hkidpost⟩ := linked_cons.mp hright
    have hbefore : ∀ x ∈ pre, ∀ e ∈ x.2, e.1 < key := by
      intro x hx e he
      exact (hpre x hx kid mem_cons_self e he).trans_le (hroute.left (ne_nil_of_mem hx))
    -- the new children fit the gap the old child leaves
    have hrow : Linked (Node ordered h pages2) (pre ++ kids ++ post) := by
      have hl2 := hl.grow (hgrow.trans hgrow2)
      rw [show pre ++ kid :: post = pre ++ [kid] ++ post by simp] at hl2
      refine hl2.splice hkids ?_ ?_
      · intro x hx e he k hk
        exact (hpre x hx kid mem_cons_self e he).trans_le
          (hmin kid.1.minKey habove (hroute.left (ne_nil_of_mem hx)) k hk)
      · intro e he y hy
        rw [hput] at he
        rcases mem_put he with rfl | hm
        · exact hroute.right y hy
        · exact hkidpost y hy e hm
    have hrowContents : contents (pre ++ kids ++ post)
        = put key stored (contents (pre ++ kid :: post)) := by
      rw [contents_append, contents_append, hput, contents_append, contents_cons,
        put_append_right, put_append_left, append_assoc]
      · intro e he
        obtain ⟨y, hy, hey⟩ := mem_contents.mp he
        exact (hroute.right y hy).trans_le (hpost.above y hy e hey)
      · intro e he
        obtain ⟨x, hx, hex⟩ := mem_contents.mp he
        exact hbefore x hx e hex
    have hne : pre ++ kids ++ post ≠ [] := by
      intro hnil
      rw [hnil] at hrowContents
      have := SortedMap.put_ne_nil key stored (contents (pre ++ kid :: post))
      exact this hrowContents.symm
    obtain ⟨parents, pages3, hwrite, hgrow3, hparents, hcont, hcount, hsep⟩ :=
      writeInternalLevel_spec ordered
        ((hgrow.trans hgrow2).ne_nil hp) hne hrow
    refine ⟨parents, pages3, ?_, hgrow2.trans hgrow3, hparents, hcont.trans hrowContents, ?_, ?_⟩
    · rw [rebuildPath, hcall, ok_bind]
      dsimp only
      have hsplice : ((pre ++ kid :: post).map Prod.fst).take pre.length ++ kids.map Prod.fst
          ++ ((pre ++ kid :: post).map Prod.fst).drop (pre.length + 1)
          = (pre ++ kids ++ post).map Prod.fst := by
        rw [← map_take, ← map_drop, take_left, ← drop_drop, drop_left, map_append, map_append]
        rfl
      rw [hread pages2 (hgrow.trans hgrow2), ok_bind, hsplice, hwrite]
    · rw [hcount]
      exact rowChunks_splice_le hbytes hlen
    · intro low hle hkey parent hpar
      obtain ⟨k, hk, heq⟩ := hsep parent hpar
      rw [heq]
      have hold : ∀ x ∈ pre ++ kid :: post, low ≤ x.1.minKey := by
        intro x hx
        obtain ⟨e, he, hfe⟩ := firstKey_mem (contents_ne_nil hl (ne_nil_of_mem hx))
        exact (hfe ▸ hle e he).trans (hfirst x hx)
      rcases mem_append.mp hk with hk | hk
      · rcases mem_append.mp hk with hk | hk
        · exact hold k (mem_append_left _ hk)
        · exact hmin low (fun e he => hle e (mem_contents.mpr ⟨kid, by simp, he⟩)) hkey k hk
      · exact hold k (by simp [hk])

end Vyrn
