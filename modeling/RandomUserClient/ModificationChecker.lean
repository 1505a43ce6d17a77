import RandomUserClient.DeepChangeChecker

/-!
# The tables that a table links to

The related tables of a table are found depth first, each with its columns of
links. If no row of theirs has been modified there is nothing to check, and if
there is only one table then its modified rows are all there is: links of a
table to itself are followed only if it links to other tables as well.
-/

namespace DeepChangeChecking

open IndexSets TransactLogs CollectionChangeBuilders CollectionChangeBuilder

/-! ## Related tables -/

namespace Column

def isLink : Column → Bool
  | .link _ => true
  | .linkList _ => true
  | .other => false

def isList : Column → Bool
  | .linkList _ => true
  | _ => false

end Column

namespace Tables

/-- One column of the table at `outIndex`; the recursive calls may resize `out`, so the table is
looked up by its index every time. -/
def addColumn (find : Nat → List RelatedTable → List RelatedTable) (outIndex : Nat)
    (out : List RelatedTable) (column : Column × Nat) : List RelatedTable :=
  if column.1.isLink then
    find column.1.target (out.modify outIndex fun tbl =>
      { tbl with links := tbl.links ++ [⟨column.2, column.1.isList⟩] })
  else out

/-- The number of tables bounds the recursion. -/
def findRelatedTables (t : Tables) : (fuel table : Nat) → List RelatedTable → List RelatedTable
  | 0, _, out => out
  | fuel + 1, table, out =>
    if out.any fun tbl => tbl.tableNdx = table then out
    else (t.columns table).zipIdx.foldl (addColumn (t.findRelatedTables fuel) out.length)
      (out ++ [⟨table, []⟩])

/-- `set_table`, with one step for each table and one for the last one found again. -/
def relatedTables (t : Tables) (count table : Nat) : List RelatedTable :=
  t.findRelatedTables (count + 1) table []

/-- The columns of links, numbered from `k` on. -/
def linkColumns (columns : List Column) (k : Nat) : List OutgoingLink :=
  (columns.zipIdx k).filterMap fun column =>
    if column.1.isLink then some ⟨column.2, column.1.isList⟩ else none

/-- A table has a column of links to another one. -/
def LinksTo (t : Tables) (table target : Nat) : Prop :=
  ∃ column ∈ t.columns table, column.isLink = true ∧ column.target = target

/-- The numbers of the tables that are known. -/
def indices (out : List RelatedTable) : List Nat := out.map RelatedTable.tableNdx

@[simp] theorem indices_append (out new : List RelatedTable) :
    indices (out ++ new) = indices out ++ indices new := List.map_append

@[simp] theorem indices_cons (tbl : RelatedTable) (out : List RelatedTable) :
    indices (tbl :: out) = tbl.tableNdx :: indices out := rfl

/-- Different tables of a group of `count` tables. -/
def Within (count : Nat) (ndxs : List Nat) : Prop := ndxs.Nodup ∧ ∀ ndx ∈ ndxs, ndx < count

/-- All columns of a table have been looked at. -/
def Settled (t : Tables) (known : List Nat) (tbl : RelatedTable) : Prop :=
  tbl.links = linkColumns (t.columns tbl.tableNdx) 0 ∧
    ∀ target, t.LinksTo tbl.tableNdx target → target ∈ known

/-- What has been found from a table on, behind the tables that were known. -/
structure Found (t : Tables) (count : Nat) (known : List Nat) (table : Nat)
    (new : List RelatedTable) : Prop where
  within : Within count (known ++ indices new)
  mem : table ∈ known ++ indices new
  settled : ∀ tbl ∈ new, t.Settled (known ++ indices new) tbl
  reached : ∀ tbl ∈ new, Relation.ReflTransGen t.LinksTo table tbl.tableNdx

theorem Settled.mono {t : Tables} {known known' : List Nat} {tbl : RelatedTable}
    (h : t.Settled known tbl) (hsub : known ⊆ known') : t.Settled known' tbl :=
  ⟨h.1, fun target ht => hsub (h.2 target ht)⟩

theorem Within.length_le {count : Nat} {ndxs : List Nat} (h : Within count ndxs) :
    ndxs.length ≤ count := by
  have hsub : ndxs ⊆ List.range count := fun ndx hndx => List.mem_range.mpr (h.2 ndx hndx)
  simpa using (List.subperm_of_subset h.1 hsub).length_le

/-- The columns of a table, one after the other. -/
theorem foldl_addColumn {t : Tables} {count : Nat}
    {find : Nat → List RelatedTable → List RelatedTable} (out : List RelatedTable) {table : Nat}
    {columns : List Column} (k : Nat)
    (hfind : ∀ column ∈ columns, column.isLink = true → ∀ out' : List RelatedTable,
      out.length < out'.length → Within count (indices out') →
      ∃ new, find column.target out' = out' ++ new ∧
        t.Found count (indices out') column.target new)
    (links : List OutgoingLink) {new : List RelatedTable}
    (hwithin : Within count (indices out ++ table :: indices new)) :
    ∃ new', (columns.zipIdx k).foldl (addColumn find out.length) (out ++ ⟨table, links⟩ :: new) =
        out ++ ⟨table, links ++ linkColumns columns k⟩ :: (new ++ new') ∧
      Within count (indices out ++ table :: indices new ++ indices new') ∧
      (∀ column ∈ columns, column.isLink = true → column.target ∈
        indices out ++ table :: indices new ++ indices new') ∧
      (∀ tbl ∈ new', t.Settled (indices out ++ table :: indices new ++ indices new') tbl) ∧
      ∀ tbl ∈ new', ∃ column ∈ columns, column.isLink = true ∧
        Relation.ReflTransGen t.LinksTo column.target tbl.tableNdx := by
  induction columns generalizing k links new with
  | nil => exact ⟨[], by simp [linkColumns], by simpa [indices] using hwithin, by simp, by simp,
      by simp⟩
  | cons column columns ih =>
    have hrest := fun column hcolumn => hfind column (List.mem_cons_of_mem _ hcolumn)
    rw [List.zipIdx_cons, List.foldl_cons]
    cases hlink : column.isLink with
    | false =>
      have hcolumns : linkColumns (column :: columns) k = linkColumns columns (k + 1) := by
        simp [linkColumns, hlink]
      obtain ⟨new', hfold, hwithin', hmem, hsettled, hreached⟩ :=
        ih (k + 1) hrest links hwithin
      rw [addColumn, if_neg (by simp [hlink]), hfold, hcolumns]
      refine ⟨new', rfl, hwithin', fun c hc hlink' => ?_, hsettled, fun tbl htbl => ?_⟩
      · rcases List.mem_cons.mp hc with rfl | hc
        · rw [hlink] at hlink'
          cases hlink'
        · exact hmem c hc hlink'
      · obtain ⟨c, hc, hfound⟩ := hreached tbl htbl
        exact ⟨c, List.mem_cons_of_mem _ hc, hfound⟩
    | true =>
      have hcolumns : linkColumns (column :: columns) k =
          ⟨k, column.isList⟩ :: linkColumns columns (k + 1) := by
        simp [linkColumns, hlink]
      have hmodify : (out ++ ⟨table, links⟩ :: new).modify out.length (fun tbl =>
          { tbl with links := tbl.links ++ [⟨k, column.isList⟩] }) =
          out ++ ⟨table, links ++ [⟨k, column.isList⟩]⟩ :: new := by
        rw [List.modify_eq_take_cons_drop (by simp)]
        simp
      obtain ⟨new₁, hcall, hfound⟩ := hfind column List.mem_cons_self hlink
        (out ++ ⟨table, links ++ [⟨k, column.isList⟩]⟩ :: new) (by simp) (by simpa using hwithin)
      obtain ⟨hwithin₁, hmem₁, hsettled₁, hreached₁⟩ := hfound
      rw [indices_append, indices_cons] at hwithin₁ hmem₁ hsettled₁
      have hnext : Within count (indices out ++ table :: indices (new ++ new₁)) := by
        simpa using hwithin₁
      obtain ⟨new', hfold, hwithin', hmem, hsettled, hreached⟩ :=
        ih (k + 1) hrest (links ++ [⟨k, column.isList⟩]) hnext
      rw [addColumn, if_pos hlink, hmodify, hcall, List.append_assoc, List.cons_append, hfold,
        hcolumns]
      have hknown : indices out ++ table :: indices (new ++ new₁) ++ indices new' =
          indices out ++ table :: indices new ++ indices (new₁ ++ new') := by simp
      rw [hknown] at hwithin' hmem hsettled
      have hsub : indices out ++ table :: indices new ++ indices new₁ ⊆
          indices out ++ table :: indices new ++ indices (new₁ ++ new') := by
        rw [indices_append, ← List.append_assoc]
        exact List.subset_append_left _ _
      refine ⟨new₁ ++ new', by simp, hwithin', fun c hc hlink' => ?_, fun tbl htbl => ?_,
        fun tbl htbl => ?_⟩
      · rcases List.mem_cons.mp hc with rfl | hc
        · exact hsub hmem₁
        · exact hmem c hc hlink'
      · rcases List.mem_append.mp htbl with htbl | htbl
        · exact (hsettled₁ tbl htbl).mono hsub
        · exact hsettled tbl htbl
      · rcases List.mem_append.mp htbl with htbl | htbl
        · exact ⟨column, List.mem_cons_self, hlink, hreached₁ tbl htbl⟩
        · obtain ⟨c, hc, hfound⟩ := hreached tbl htbl
          exact ⟨c, List.mem_cons_of_mem _ hc, hfound⟩

/-- From each table all others that it leads to are found. -/
theorem findRelatedTables_found {t : Tables} {count : Nat}
    (htargets : ∀ table target, t.LinksTo table target → target < count) {fuel table : Nat}
    (htable : table < count) {out : List RelatedTable} (hfuel : count < fuel + out.length)
    (hwithin : Within count (indices out)) :
    ∃ new, t.findRelatedTables fuel table out = out ++ new ∧
      t.Found count (indices out) table new := by
  induction fuel generalizing table out with
  | zero =>
    have := hwithin.length_le
    rw [indices, List.length_map] at this
    omega
  | succ fuel ih =>
    rw [findRelatedTables]
    split
    · rename_i hany
      rw [List.any_eq_true] at hany
      obtain ⟨tbl, htbl, heq⟩ := hany
      refine ⟨[], by simp, by simpa [indices] using hwithin, ?_, by simp, by simp⟩
      exact List.mem_append_left _ (List.mem_map.mpr ⟨tbl, htbl, of_decide_eq_true heq⟩)
    · rename_i hany
      have hnew : table ∉ indices out := fun hmem => by
        obtain ⟨tbl, htbl, heq⟩ := List.mem_map.mp hmem
        exact hany (List.any_eq_true.mpr ⟨tbl, htbl, decide_eq_true heq⟩)
      have hcolumn : ∀ column ∈ t.columns table, column.isLink = true →
          t.LinksTo table column.target := fun column hcolumn hlink => ⟨column, hcolumn, hlink, rfl⟩
      have hstart : Within count (indices out ++ table :: indices []) := by
        change Within count (indices out ++ [table])
        refine ⟨?_, fun ndx hndx => ?_⟩
        · rw [List.nodup_append]
          refine ⟨hwithin.1, by simp, fun ndx hndx ndx' hndx' heq => hnew ?_⟩
          rwa [← List.mem_singleton.mp hndx', ← heq]
        · rcases List.mem_append.mp hndx with hndx | hndx
          · exact hwithin.2 ndx hndx
          · rwa [List.mem_singleton.mp hndx]
      obtain ⟨new, hfold, hwithin', hmem, hsettled, hreached⟩ := foldl_addColumn out 0
        (fun column hc hlink out' hlen hwithin' => ih (htargets _ _ (hcolumn column hc hlink))
          (by omega) hwithin') [] hstart
      rw [List.nil_append, List.nil_append] at hfold
      have hknown : indices out ++ table :: indices [] ++ indices new = indices out ++
          indices (⟨table, linkColumns (t.columns table) 0⟩ :: new) := by
        simp [indices]
      rw [hknown] at hwithin' hmem hsettled
      refine ⟨_, hfold, hwithin', by simp, fun tbl htbl => ?_, fun tbl htbl => ?_⟩
      · rcases List.mem_cons.mp htbl with rfl | htbl
        · refine ⟨rfl, ?_⟩
          rintro _ ⟨column, hc, hlink, rfl⟩
          exact hmem column hc hlink
        · exact hsettled tbl htbl
      · rcases List.mem_cons.mp htbl with rfl | htbl
        · exact .refl
        · obtain ⟨column, hc, hlink, hreach⟩ := hreached tbl htbl
          exact .head (hcolumn column hc hlink) hreach

/-- What is known of the tables that a table leads to, itself among them. -/
structure Related (t : Tables) (table : Nat) (out : List RelatedTable) : Prop where
  nodup : (indices out).Nodup
  mem : ∀ ndx, ndx ∈ indices out ↔ Relation.ReflTransGen t.LinksTo table ndx
  links : ∀ tbl ∈ out, tbl.links = linkColumns (t.columns tbl.tableNdx) 0

theorem related_relatedTables {t : Tables} {count table : Nat}
    (htargets : ∀ table target, t.LinksTo table target → target < count) (htable : table < count) :
    t.Related table (t.relatedTables count table) := by
  have hfuel : count < (count + 1) + ([] : List RelatedTable).length := by simp
  obtain ⟨new, hnew, hfound⟩ :=
    findRelatedTables_found htargets htable hfuel ⟨List.nodup_nil, by simp [indices]⟩
  have hknown : indices [] ++ indices new = indices new := rfl
  obtain ⟨hwithin, hmem, hsettled, hreached⟩ := hfound
  rw [hknown] at hwithin hmem hsettled
  rw [relatedTables, hnew, List.nil_append]
  refine ⟨hwithin.1, fun ndx => ⟨fun hndx => ?_, fun hreach => ?_⟩, fun tbl htbl =>
    (hsettled tbl htbl).1⟩
  · obtain ⟨tbl, htbl, rfl⟩ := List.mem_map.mp hndx
    exact hreached tbl htbl
  · induction hreach with
    | refl => exact hmem
    | tail _ hlink ih =>
      obtain ⟨tbl, htbl, rfl⟩ := List.mem_map.mp ih
      exact (hsettled tbl htbl).2 _ hlink

/-- One row links to another. -/
def Leads (t : Tables) (x y : Node) : Prop :=
  ∃ col, ((t.columns x.1)[col]? = some (.link y.1) ∧ t.link x.1 col x.2 = some y.2) ∨
    ((t.columns x.1)[col]? = some (.linkList y.1) ∧ y.2 ∈ t.linkList x.1 col x.2)

theorem Leads.linksTo {t : Tables} {x y : Node} (h : t.Leads x y) : t.LinksTo x.1 y.1 := by
  obtain ⟨col, ⟨hcol, -⟩ | ⟨hcol, -⟩⟩ := h
  · exact ⟨_, List.mem_of_getElem? hcol, rfl, rfl⟩
  · exact ⟨_, List.mem_of_getElem? hcol, rfl, rfl⟩

theorem mem_linkColumns {columns : List Column} {link : OutgoingLink} :
    link ∈ linkColumns columns 0 ↔ ∃ column, columns[link.colNdx]? = some column ∧
      column.isLink = true ∧ column.isList = link.isList := by
  simp only [linkColumns, List.mem_filterMap, Option.ite_none_right_eq_some, Option.some.injEq,
    Prod.exists, List.mem_zipIdx_iff_getElem?]
  constructor
  · rintro ⟨column, col, hcol, hlink, rfl⟩
    exact ⟨column, hcol, hlink, rfl⟩
  · rintro ⟨column, hcol, hlink, hlist⟩
    refine ⟨column, link.colNdx, hcol, hlink, ?_⟩
    rw [hlist]

end Tables

/-- The checker follows the links of the related tables. -/
theorem DeepChangeChecker.links_iff {c : DeepChangeChecker} {table : Nat}
    (h : c.tables.Related table c.relatedTables) {x : Node}
    (hx : x.1 ∈ Tables.indices c.relatedTables) (y : Node) :
    c.Links x y ↔ c.tables.Leads x y := by
  have hlinks : c.linksOf x = Tables.linkColumns (c.tables.columns x.1) 0 := by
    rw [DeepChangeChecker.linksOf]
    cases hfind : c.relatedTables.find? fun tbl => tbl.tableNdx = x.1 with
    | none =>
      obtain ⟨tbl, htbl, heq⟩ := List.mem_map.mp hx
      exact absurd heq (by simpa using List.find?_eq_none.mp hfind tbl htbl)
    | some tbl =>
      have heq : tbl.tableNdx = x.1 := by simpa using List.find?_some hfind
      rw [Option.map_some, Option.getD_some, h.links tbl (List.mem_of_find?_eq_some hfind), heq]
  rw [DeepChangeChecker.Links, hlinks]
  simp only [Tables.mem_linkColumns, DeepChangeChecker.behind, List.mem_map, Tables.linkTarget]
  constructor
  · rintro ⟨⟨col, isList⟩, ⟨column, hcol, hlink, hlist⟩, dst, hdst, rfl⟩
    refine ⟨col, ?_⟩
    dsimp only at hcol hlist hdst ⊢
    cases column with
    | link target =>
      obtain rfl : false = isList := hlist
      exact Or.inl ⟨by rw [hcol]; rfl, by simpa using hdst⟩
    | linkList target =>
      obtain rfl : true = isList := hlist
      exact Or.inr ⟨by rw [hcol]; rfl, by simpa using hdst⟩
    | other => cases hlink
  · rintro ⟨col, ⟨hcol, hdst⟩ | ⟨hcol, hdst⟩⟩
    · exact ⟨⟨col, false⟩, ⟨_, hcol, rfl, rfl⟩, y.2, by simpa using hdst, by rw [hcol]; rfl⟩
    · exact ⟨⟨col, true⟩, ⟨_, hcol, rfl, rfl⟩, y.2, by simpa using hdst, by rw [hcol]; rfl⟩

/-! ## The modification checker -/

/-- What `get_modification_checker` returns. -/
inductive ModificationChecker where
  | never
  | direct (modifications : IndexSet)
  | deep (checker : DeepChangeChecker)

/-- First check if any of the tables accessible from the root table were actually modified. -/
def getModificationChecker (info : TransactionChangeInfo) (tables : Tables) (rootTable : Nat)
    (relatedTables : List RelatedTable) : ModificationChecker :=
  let tableModified := fun tbl : RelatedTable => decide (tbl.tableNdx < info.tables.length) &&
    !(info.table tbl.tableNdx).modifications.isEmpty
  if !relatedTables.any tableModified then .never
  else if h : relatedTables.length = 1 then
    .direct (info.table relatedTables[0].tableNdx).modifications
  else .deep ⟨info, tables, rootTable, relatedTables⟩

namespace ModificationChecker

/-- The answer for a row that is the first one asked for. -/
def answer : ModificationChecker → Nat → Bool
  | .never, _ => false
  | .direct modifications, ndx => modifications.contains ndx
  | .deep checker, ndx => (checker.check ndx .create).1

/-- The answers for some rows, one after the other. -/
def answers : ModificationChecker → List Nat → List Bool
  | .deep checker, rows => checker.checkAll rows .create
  | checker, rows => rows.map checker.answer

end ModificationChecker

/-- The row was modified. -/
def ModifiedIn (info : TransactionChangeInfo) (x : Node) : Prop :=
  (info.table x.1).modifications.contains x.2 = true

theorem modified_iff (c : DeepChangeChecker) (x : Node) : c.Modified x ↔ ModifiedIn c.info x := by
  rw [DeepChangeChecker.Modified, DeepChangeChecker.modified, ModifiedIn, Bool.and_eq_true,
    decide_eq_true_eq, and_iff_right_iff_imp]
  intro h
  by_contra hlt
  rw [TransactionChangeInfo.table, List.getD_eq_getElem?_getD,
    List.getElem?_eq_none (Nat.le_of_not_lt hlt)] at h
  cases h

/-- The answers do not depend on the shortcuts or on what has been asked before, but for the links
of a table that has links to itself only. -/
theorem answer_iff {t : Tables} {rootTable : Nat} {related : List RelatedTable}
    (hrelated : t.Related rootTable related) (info : TransactionChangeInfo) (ndx : Nat) :
    (getModificationChecker info t rootTable related).answer ndx = true ↔
      Near t.Leads (ModifiedIn info) (if related.length = 1 then 0 else 3) (rootTable, ndx) := by
  have hmem : rootTable ∈ Tables.indices related := (hrelated.mem rootTable).mpr .refl
  have hclosed : ∀ x y, x.1 ∈ Tables.indices related → t.Leads x y →
      y.1 ∈ Tables.indices related := fun x y hx hxy =>
    (hrelated.mem y.1).mpr (((hrelated.mem x.1).mp hx).tail hxy.linksTo)
  rw [getModificationChecker]
  split
  · rename_i hnone
    rw [Bool.not_eq_true', List.any_eq_false] at hnone
    have hno : ∀ x : Node, x.1 ∈ Tables.indices related → ¬ ModifiedIn info x := fun x hx hmod => by
      obtain ⟨tbl, htbl, heq⟩ := List.mem_map.mp hx
      have hlt := (modified_iff ⟨info, t, rootTable, related⟩ x).mpr hmod
      rw [DeepChangeChecker.Modified, DeepChangeChecker.modified, Bool.and_eq_true] at hlt
      refine hnone tbl htbl ?_
      rw [heq, Bool.and_eq_true, Bool.not_eq_true', ← Bool.not_eq_true, IndexSet.isEmpty_iff]
      exact ⟨hlt.1, fun hempty => Bool.false_ne_true ((hempty x.2).symm.trans hmod)⟩
    exact ⟨fun h => (by cases h), fun hnear => absurd hnear (not_near_of_closed hno
      (fun x hx => Or.inr fun y hxy => hclosed x y hx hxy) (Nat.le_succ _) hmem)⟩
  · split
    · rename_i hlen
      obtain ⟨tbl, rfl⟩ := List.length_eq_one_iff.mp hlen
      obtain rfl : rootTable = tbl.tableNdx := by simpa [Tables.indices] using hmem
      exact Iff.rfl
    · rename_i hlen
      obtain ⟨c, hc⟩ : ∃ c : DeepChangeChecker, c = ⟨info, t, rootTable, related⟩ := ⟨_, rfl⟩
      have hlinks : ∀ x : Node, x.1 ∈ Tables.indices related → ∀ y, c.Links x y ↔ t.Leads x y :=
        fun x hx y => by
          subst hc
          exact DeepChangeChecker.links_iff hrelated hx y
      have hmarks : ∀ x : Node, x.1 ∈ Tables.indices related → (c.Modified x ↔ ModifiedIn info x) :=
        fun x _ => by
          subst hc
          exact modified_iff _ x
      have hnear : Near c.Links c.Modified 3 (rootTable, ndx) ↔
          Near t.Leads (ModifiedIn info) 3 (rootTable, ndx) :=
        near_congr hmarks hlinks (fun x y hx hxy => hclosed x y hx ((hlinks x hx y).mp hxy)) 3 hmem
      have hcheck := (c.ready_create.check ndx).1
      rw [show c.rootTable = rootTable by rw [hc], hnear] at hcheck
      rw [← hc]
      exact hcheck

/-- Any sequence of rows is answered as if each of them were the first one. -/
theorem answers_eq (checker : ModificationChecker) (rows : List Nat) :
    checker.answers rows = rows.map checker.answer := by
  cases checker with
  | never => rfl
  | direct modifications => rfl
  | deep c => exact c.ready_create.checkAll rows

/-- A row counts as modified if a modified row can be reached from it by at most three links; the
order of the questions does not matter. Links that a table has to itself only are not followed. -/
theorem modificationChecker_exact {t : Tables} {count rootTable : Nat}
    (htargets : ∀ table target, t.LinksTo table target → target < count)
    (hroot : rootTable < count) (info : TransactionChangeInfo) (rows : List Nat) :
    ((getModificationChecker info t rootTable
      (t.relatedTables count rootTable)).answers rows).length = rows.length ∧
    ∀ (i ndx : Nat), rows[i]? = some ndx →
      (((getModificationChecker info t rootTable
          (t.relatedTables count rootTable)).answers rows)[i]? = some true ↔
        Near t.Leads (ModifiedIn info)
          (if (t.relatedTables count rootTable).length = 1 then 0 else 3) (rootTable, ndx)) := by
  rw [answers_eq]
  refine ⟨List.length_map _, fun i ndx hi => ?_⟩
  rw [List.getElem?_map, hi, Option.map_some, Option.some.injEq]
  exact answer_iff (Tables.related_relatedTables htargets hroot) info ndx

theorem modificationChecker_exact_linked :
    let t : Tables := ⟨fun table => if table = 0 then [.other, .link 1] else [],
      fun _ _ row => some (row + 1), fun _ _ _ => []⟩
    let info : TransactionChangeInfo := ⟨[], [], true, [empty, empty.modify 2]⟩
    (getModificationChecker info t 0 (t.relatedTables 2 0)).answers [0, 1, 0] =
        [false, true, false] ∧
      Near t.Leads (ModifiedIn info) (if (t.relatedTables 2 0).length = 1 then 0 else 3)
        (0, 1) := by
  intro t info
  have htargets : ∀ table target, t.LinksTo table target → target < 2 := by
    rintro table _ ⟨column, hcolumn, hlink, rfl⟩
    simp only [t] at hcolumn
    split at hcolumn
    · rcases List.mem_cons.mp hcolumn with rfl | hcolumn
      · cases hlink
      · rw [List.mem_singleton.mp hcolumn]
        decide
    · cases hcolumn
  have hroot : 0 < 2 := Nat.two_pos
  have hexact := (modificationChecker_exact htargets hroot info [0, 1, 0]).2 1 1 rfl
  exact ⟨by decide, hexact.mp (by decide)⟩

/-- A row of a table that links to nothing but itself is not checked any further. -/
example :
    let t : Tables := ⟨fun _ => [.link 0], fun _ _ row => some (row + 1), fun _ _ _ => []⟩
    let info : TransactionChangeInfo := ⟨[], [], true, [empty.modify 1]⟩
    (getModificationChecker info t 0 (t.relatedTables 1 0)).answers [0, 1] = [false, true] := by
  decide

end DeepChangeChecking
