import DistStorage.Cpp.Integer
import DistStorage.Query.QueryGraph

/-!
# Printing a query graph

`printQueryGraph` sorts the nodes by their data frames before it prints them. A node
that is its own data frame opens a group, a node in another data frame is put into the
group of that one, and a node without a data frame stands alone. The groups are made in
one pass: a group is opened as an empty one also if nodes were put into it before, and
a node that is put into a group makes the group if there is none.

The lines are modelled by what they show; how numbers and names are padded is left out.
-/

namespace DistStorage

namespace Query

open Cpp

/-- What a row shows for a name: the name of the node or that of its data frame. -/
inductive PrintedName
  | name (text : Bytes) | df (text : Bytes)
  deriving DecidableEq, Repr

/-- What a row shows for a constant. An array that is not in its table is shown as an
empty one. -/
inductive PrintedConstant
  | int64 (value : ℤ) | float64 (value : Double) | string (value : Bytes) | id (constId : ℤ)
  | int64Array (values : List ℤ) | float64Array (values : List Double)
  | stringArray (values : List Bytes) | emptyArray
  deriving DecidableEq, Repr

structure PrintedRow where
  id : ℤ
  isChild : Bool
  op : ColumnOperation
  type : ValueType
  name : Option PrintedName
  constant : Option PrintedConstant
  args : List ℤ
  deriving DecidableEq, Repr

inductive PrintedLine
  | rule | title | separator | standaloneTitle
  | row (r : PrintedRow)
  deriving DecidableEq, Repr

/-- A negative position, compared as a `size_t`, is beyond every table. -/
def printConstant (g : QueryGraph) (op : Operation) : Option PrintedConstant :=
  if op.constId = nodeNone then none
  else if op.sequence ≠ .ARRAY then
    some <| match op.type with
      | .Int64 => (index g.int64Constants op.constId).elim (.id op.constId) .int64
      | .Float64 => (index g.float64Constants op.constId).elim (.id op.constId) .float64
      | .String => (index g.stringConstants op.constId).elim (.id op.constId) .string
      | _ => .id op.constId
  else
    some <| match op.type with
      | .Int64 => (index g.int64ArrayConstants op.constId).elim .emptyArray .int64Array
      | .Float64 => (index g.float64ArrayConstants op.constId).elim .emptyArray .float64Array
      | .String => (index g.stringArrayConstants op.constId).elim .emptyArray .stringArray
      | _ => .emptyArray

/-- The name of a row, undefined when the data frame it is looked up in is not a
node. -/
def printName (g : QueryGraph) (op : Operation) (isChild : Bool) : Option (Option PrintedName) :=
  match index g.names op.name with
  | some text => some (some (.name text))
  | none =>
      if isChild = true ∧ op.df ≠ nodeNone then
        (index g.operations op.df).map fun parent => (index g.names parent.name).map .df
      else some none

def printNode (g : QueryGraph) (id : ℤ) (isChild : Bool) : Option PrintedRow :=
  (index g.operations id).bind fun op =>
    (printName g op isChild).map fun name =>
      { id := id, isChild := isChild, op := op.op, type := op.type, name := name,
        constant := printConstant g op, args := g.children id }

/-- The groups and the nodes that stand alone. -/
abbrev Buckets := OrderedMap ℤ (List ℤ) × List ℤ

def bucketNode (buckets : Buckets) (i : ℤ) (currentDf : ℤ) : Buckets :=
  if currentDf = i then (buckets.1.insert i [], buckets.2)
  else if currentDf ≠ nodeNone then
    (buckets.1.insert currentDf ((buckets.1.find currentDf).getD [] ++ [i]), buckets.2)
  else (buckets.1, buckets.2 ++ [i])

/-- The loop from the node `i` on. -/
def bucketNodes : ℤ → List Operation → Buckets → Option Buckets
  | _, [], buckets => some buckets
  | i, o :: rest, buckets =>
      (intSucc i).bind fun next => bucketNodes next rest (bucketNode buckets i o.df)

def printRows (g : QueryGraph) (isChild : Bool) : List ℤ → Option (List PrintedLine)
  | [] => some []
  | id :: ids =>
      (printNode g id isChild).bind fun r =>
        (printRows g isChild ids).map fun rows => .row r :: rows

def printGroups (g : QueryGraph) : List (ℤ × List ℤ) → Option (List PrintedLine)
  | [] => some []
  | (dfId, children) :: groups =>
      (printNode g dfId false).bind fun root =>
        (printRows g true children).bind fun rows =>
          (printGroups g groups).map fun lines => .separator :: .row root :: rows ++ lines

def printQueryGraph (g : QueryGraph) : Option (List PrintedLine) :=
  (bucketNodes 0 g.operations (∅, [])).bind fun buckets =>
    (printGroups g buckets.1.entries).bind fun groups =>
      (printRows g false buckets.2).map fun rows =>
        [.rule, .title, .rule] ++ groups ++
          (if buckets.2 = [] then [] else .separator :: .standaloneTitle :: rows) ++ [.rule]

/-- How a node is shown. -/
inductive Role
  | root | child (df : ℤ) | standalone
  deriving DecidableEq, Repr

/-- The nodes that the lines show, with what they are shown as. A row is read below the
last data frame before it, or below the title of the nodes that stand alone. -/
def rolesFrom : Option ℤ → List PrintedLine → List (ℤ × Role)
  | _, [] => []
  | none, .row r :: lines => (r.id, .standalone) :: rolesFrom none lines
  | some df, .row r :: lines =>
      if r.isChild then (r.id, .child df) :: rolesFrom (some df) lines
      else (r.id, .root) :: rolesFrom (some r.id) lines
  | _, .standaloneTitle :: lines => rolesFrom none lines
  | df, _ :: lines => rolesFrom df lines

theorem rolesFrom_root (df : ℤ) {r : PrintedRow} (hr : r.isChild = false)
    (lines : List PrintedLine) :
    rolesFrom (some df) (.row r :: lines) = (r.id, .root) :: rolesFrom (some r.id) lines := by
  rw [rolesFrom, hr]
  rfl

theorem rolesFrom_child (df : ℤ) {r : PrintedRow} (hr : r.isChild = true)
    (lines : List PrintedLine) :
    rolesFrom (some df) (.row r :: lines) = (r.id, .child df) :: rolesFrom (some df) lines := by
  rw [rolesFrom, hr]
  rfl

theorem rolesFrom_separator (df : ℤ) (lines : List PrintedLine) :
    rolesFrom (some df) (.separator :: lines) = rolesFrom (some df) lines := rfl

/-- What a node is to be shown as. -/
def role (g : OpGraph) (i : ℤ) : Role :=
  if (g.operation i).df = i then .root
  else if (g.operation i).df ≠ nodeNone then .child (g.operation i).df
  else .standalone

def firstNodes (k : ℕ) : List ℤ := (List.range k).map Nat.cast

/-- The graph is printed, and every node is shown once and as what it is. -/
def PrintsOnce (g : QueryGraph) : Prop :=
  ∃ lines, printQueryGraph g = some lines ∧
    (rolesFrom (some nodeNone) lines).Perm
      ((firstNodes g.size).map fun i => (i, role g.toOpGraph i))

section Buckets

/-- The nodes before `k` that are in the group of `d` after the pass has come to `k`. -/
def members (df : ℤ → ℤ) (k : ℕ) (d : ℤ) : List ℤ :=
  (firstNodes k).filter fun i => df i = d ∧ i ≠ d ∧ (d < k → df d = d → d < i)

/-- The buckets when the pass has come to `k`. -/
structure Bucketed (df : ℤ → ℤ) (k : ℕ) (buckets : Buckets) : Prop where
  find : ∀ d, buckets.1.find d =
    if d ≠ nodeNone ∧ ∃ i ∈ firstNodes k, df i = d then some (members df k d) else none
  standalone : buckets.2 = (firstNodes k).filter fun i => df i = nodeNone

theorem firstNodes_succ (k : ℕ) : firstNodes (k + 1) = firstNodes k ++ [(k : ℤ)] := by
  simp [firstNodes, List.range_succ]

theorem mem_firstNodes {k : ℕ} {i : ℤ} : i ∈ firstNodes k ↔ 0 ≤ i ∧ i < k := by
  simp only [firstNodes, List.mem_map, List.mem_range]
  constructor
  · rintro ⟨j, hj, rfl⟩
    omega
  · rintro ⟨h0, hlt⟩
    exact ⟨i.toNat, by omega, by omega⟩

theorem nodup_firstNodes (k : ℕ) : (firstNodes k).Nodup :=
  List.nodup_range.map Nat.cast_injective

/-- Only a node in the group changes the group, and the data frame itself empties it. -/
theorem members_succ (df : ℤ → ℤ) (k : ℕ) (d : ℤ) :
    members df (k + 1) d =
      if df k = d then if d = k then [] else members df k d ++ [(k : ℤ)] else members df k d := by
  have hsame : ¬(df k = d ∧ d = k) → ∀ i ∈ firstNodes k,
      (decide (df i = d ∧ i ≠ d ∧ (d < (k + 1 : ℕ) → df d = d → d < i)) : Bool) =
        decide (df i = d ∧ i ≠ d ∧ (d < k → df d = d → d < i)) := by
    intro hreset i _
    have hreach : (d < (k + 1 : ℕ) → df d = d → d < i) ↔ (d < k → df d = d → d < i) := by
      by_cases hd : d = k
      · have hroot : df d ≠ d := fun h => hreset ⟨hd ▸ h, hd⟩
        exact ⟨fun _ _ h => absurd h hroot, fun _ _ h => absurd h hroot⟩
      · exact imp_congr_left (by push_cast; omega)
    exact decide_eq_decide.mpr (and_congr_right fun _ => and_congr_right fun _ => hreach)
  rw [members, firstNodes_succ, List.filter_append]
  split_ifs with hk hd
  · rw [List.append_eq_nil_iff, List.filter_eq_nil_iff, List.filter_eq_nil_iff]
    constructor
    · intro i hi
      have hlt := (mem_firstNodes.mp hi).2
      rw [decide_eq_true_iff]
      rintro ⟨-, -, hafter⟩
      have hroot : df d = d := by
        rw [hd]
        exact hk.trans hd
      have hafter' := hafter (by push_cast; omega) hroot
      omega
    · intro i hi
      rw [List.mem_singleton.mp hi, hd, decide_eq_true_iff]
      exact fun h => h.2.1 rfl
  · have hself : (decide (df k = d ∧ (k : ℤ) ≠ d ∧ (d < (k + 1 : ℕ) → df d = d → d < k)) : Bool) =
        true := decide_eq_true ⟨hk, Ne.symm hd, fun hlt _ => by push_cast at hlt; omega⟩
    rw [List.filter_congr (hsame fun h => hd h.2), List.filter_singleton, hself]
    rfl
  · have hself : (decide (df k = d ∧ (k : ℤ) ≠ d ∧ (d < (k + 1 : ℕ) → df d = d → d < k)) : Bool) =
        false := decide_eq_false fun h => hk h.1
    rw [List.filter_congr (hsame fun h => hk h.1), List.filter_singleton, hself]
    exact List.append_nil _

theorem members_eq_nil {df : ℤ → ℤ} {k : ℕ} {d : ℤ} (h : ¬∃ i ∈ firstNodes k, df i = d) :
    members df k d = [] :=
  List.filter_eq_nil_iff.mpr fun i hi hmem => h ⟨i, hi, (of_decide_eq_true hmem).1⟩

theorem Bucketed.getD_find {df : ℤ → ℤ} {k : ℕ} {buckets : Buckets} (h : Bucketed df k buckets)
    {d : ℤ} (hd : d ≠ nodeNone) : (buckets.1.find d).getD [] = members df k d := by
  rw [h.find d]
  split_ifs with hkey
  · rfl
  · exact (members_eq_nil fun hex => hkey ⟨hd, hex⟩).symm

theorem Bucketed.insert {df : ℤ → ℤ} {k : ℕ} {buckets : Buckets} (h : Bucketed df k buckets)
    (hd : df k ≠ nodeNone) :
    Bucketed df (k + 1) (buckets.1.insert (df k) (members df (k + 1) (df k)), buckets.2) := by
  refine ⟨fun d => ?_, ?_⟩
  · have hkey : (∃ i ∈ firstNodes (k + 1), df i = d) ↔
        (∃ i ∈ firstNodes k, df i = d) ∨ df k = d := by
      simp only [firstNodes_succ, List.mem_append, List.mem_singleton, or_and_right, exists_or,
        exists_eq_left]
    rw [OrderedMap.find_insert]
    split_ifs with hdk hpresent hpresent
    · rw [hdk]
    · exact absurd ⟨hdk ▸ hd, hkey.mpr (.inr hdk.symm)⟩ hpresent
    · have hold : ∃ i ∈ firstNodes k, df i = d :=
        (hkey.mp hpresent.2).resolve_right fun hk => hdk hk.symm
      rw [h.find d, if_pos ⟨hpresent.1, hold⟩, members_succ, if_neg (Ne.symm hdk)]
    · rw [h.find d, if_neg fun hold => hpresent ⟨hold.1, hkey.mpr (.inl hold.2)⟩]
  · rw [h.standalone, firstNodes_succ, List.filter_append, List.filter_singleton,
      decide_eq_false hd]
    exact (List.append_nil _).symm

theorem Bucketed.step {df : ℤ → ℤ} {k : ℕ} {buckets : Buckets} (h : Bucketed df k buckets) :
    Bucketed df (k + 1) (bucketNode buckets k (df k)) := by
  rw [bucketNode]
  split_ifs with hroot hnone
  · have hd : df k ≠ nodeNone := by
      rw [hroot]
      exact ne_nodeNone_of_nonneg (Nat.cast_nonneg k)
    have hinsert := h.insert hd
    rwa [members_succ, if_pos rfl, if_pos hroot, hroot] at hinsert
  · have hinsert := h.insert hnone
    rwa [members_succ, if_pos rfl, if_neg hroot, ← h.getD_find hnone] at hinsert
  · rw [not_not] at hnone
    refine ⟨fun d => ?_, ?_⟩
    · have hkey : d ≠ nodeNone ∧ (∃ i ∈ firstNodes (k + 1), df i = d) ↔
          d ≠ nodeNone ∧ ∃ i ∈ firstNodes k, df i = d := by
        refine and_congr_right fun hd => ?_
        simp only [firstNodes_succ, List.mem_append, List.mem_singleton, or_and_right, exists_or,
          exists_eq_left]
        exact or_iff_left fun hk => hd (hk.symm.trans hnone)
      rw [h.find d]
      split_ifs with hold hnew hnew
      · rw [members_succ, if_neg fun hk => hold.1 (hk.symm.trans hnone)]
      · exact absurd (hkey.mpr hold) hnew
      · exact absurd (hkey.mp hnew) hold
      · rfl
    · rw [h.standalone, firstNodes_succ, List.filter_append, List.filter_singleton,
        decide_eq_true hnone]
      rfl

theorem bucketed_nil (df : ℤ → ℤ) : Bucketed df 0 (∅, []) := by
  refine ⟨fun d => ?_, rfl⟩
  rw [if_neg fun h => ?_]
  · rfl
  · obtain ⟨i, hi, -⟩ := h.2
    exact absurd hi List.not_mem_nil

/-- The pass fills the groups as long as an `int` can count the nodes. -/
theorem bucketNodes_bucketed {df : ℤ → ℤ} {k : ℕ} {rest : List Operation} {buckets : Buckets}
    (h : Bucketed df k buckets) (hdf : ∀ (j : ℕ) o, rest[j]? = some o → o.df = df (k + j))
    (hlength : k + rest.length < 2 ^ 31) :
    ∃ buckets', bucketNodes k rest buckets = some buckets' ∧
      Bucketed df (k + rest.length) buckets' := by
  induction rest generalizing k buckets with
  | nil => exact ⟨buckets, rfl, h⟩
  | cons o rest ih =>
      rw [List.length_cons] at hlength
      have hfirst : o.df = df k := by
        have := hdf 0 o rfl
        rwa [Nat.cast_zero, add_zero] at this
      have hrest : ∀ (j : ℕ) o, rest[j]? = some o → o.df = df ((k + 1 : ℕ) + j) := by
        intro j o' ho
        rw [hdf (j + 1) o' ho]
        push_cast
        congr 1
        omega
      rw [bucketNodes, intSucc_natCast (by omega), Option.bind_some, hfirst]
      obtain ⟨buckets', hrun, hbucketed⟩ := ih h.step hrest (by omega)
      refine ⟨buckets', hrun, ?_⟩
      rwa [List.length_cons, Nat.add_comm rest.length, ← Nat.add_assoc]

theorem bucketNodes_of_long {k : ℕ} {rest : List Operation} {buckets : Buckets} (hk : k < 2 ^ 31)
    (hlength : 2 ^ 31 ≤ k + rest.length) : bucketNodes k rest buckets = none := by
  induction rest generalizing k buckets with
  | nil =>
      rw [List.length_nil] at hlength
      omega
  | cons o rest ih =>
      rw [List.length_cons] at hlength
      rw [bucketNodes]
      by_cases hlast : k + 1 < 2 ^ 31
      · rw [intSucc_natCast hlast]
        exact ih hlast (by omega)
      · rw [intSucc_natCast_last hk hlast]
        rfl

end Buckets

section Rows

variable {g : QueryGraph}

/-- Every data frame of a node is absent or a node. -/
def ValidDfs (g : OpGraph) : Prop :=
  ∀ i, g.Valid i → (g.operation i).df = nodeNone ∨ g.Valid (g.operation i).df

/-- Every data frame is its own one and comes before the other nodes in it. -/
def DataFramesLead (g : OpGraph) : Prop :=
  ∀ i, g.Valid i → (g.operation i).df ≠ nodeNone →
    (g.operation (g.operation i).df).df = (g.operation i).df ∧ (g.operation i).df ≤ i

theorem index_operations {g : OpGraph} {i : ℤ} (hi : g.Valid i) :
    index g.operations i = some (g.operation i) := by
  obtain ⟨o, ho⟩ := Option.isSome_iff_exists.mp ((index_isSome_iff g.operations i).mpr hi)
  rw [OpGraph.operation, ho, Option.getD_some]

theorem printNode_eq (hdfs : ValidDfs g.toOpGraph) {id : ℤ} (hid : g.Valid id) (isChild : Bool) :
    ∃ r, printNode g id isChild = some r ∧ r.id = id ∧ r.isChild = isChild := by
  obtain ⟨name, hname⟩ : ∃ name, printName g (g.operation id) isChild = some name := by
    rw [printName]
    split
    · exact ⟨_, rfl⟩
    · split_ifs with hdf
      · rw [index_operations ((hdfs id hid).resolve_left hdf.2)]
        exact ⟨_, rfl⟩
      · exact ⟨_, rfl⟩
  rw [printNode, index_operations hid, Option.bind_some, hname]
  exact ⟨_, rfl, rfl, rfl⟩

theorem printRows_roles (hdfs : ValidDfs g.toOpGraph) {isChild : Bool} {heading : Option ℤ}
    {role : Role} (hread : ∀ r lines, r.isChild = isChild →
      rolesFrom heading (.row r :: lines) = (r.id, role) :: rolesFrom heading lines)
    {ids : List ℤ} (hids : ∀ id ∈ ids, g.Valid id) :
    ∃ rows, printRows g isChild ids = some rows ∧ ∀ lines,
      rolesFrom heading (rows ++ lines) = ids.map (·, role) ++ rolesFrom heading lines := by
  induction ids with
  | nil => exact ⟨[], rfl, fun _ => rfl⟩
  | cons id ids ih =>
      obtain ⟨hid, hrest⟩ := List.forall_mem_cons.mp hids
      obtain ⟨r, hr, rfl, hchild⟩ := printNode_eq hdfs hid isChild
      obtain ⟨rows, hrows, hroles⟩ := ih hrest
      refine ⟨.row r :: rows, ?_, fun lines => ?_⟩
      · rw [printRows, hr, Option.bind_some, hrows, Option.map_some]
      · rw [List.cons_append, hread r _ hchild, hroles, List.map_cons, List.cons_append]

/-- The roles that the groups are shown in. -/
def groupRoles (groups : List (ℤ × List ℤ)) : List (ℤ × Role) :=
  groups.flatMap fun group => (group.1, .root) :: group.2.map (·, .child group.1)

theorem printGroups_roles (hdfs : ValidDfs g.toOpGraph) {groups : List (ℤ × List ℤ)}
    (hgroups : ∀ group ∈ groups, g.Valid group.1 ∧ ∀ id ∈ group.2, g.Valid id) :
    ∃ lines, printGroups g groups = some lines ∧ ∀ df rest, ∃ df',
      rolesFrom (some df) (lines ++ rest) = groupRoles groups ++ rolesFrom (some df') rest := by
  induction groups with
  | nil => exact ⟨[], rfl, fun df _ => ⟨df, rfl⟩⟩
  | cons group groups ih =>
      obtain ⟨⟨hroot, hchildren⟩, hrest⟩ := List.forall_mem_cons.mp hgroups
      obtain ⟨r, hr, hid, hchild⟩ := printNode_eq hdfs hroot false
      obtain ⟨rows, hrows, hroles⟩ := printRows_roles hdfs
        (fun r lines hr => rolesFrom_child group.1 hr lines) hchildren
      obtain ⟨lines, hlines, hgroupRoles⟩ := ih hrest
      refine ⟨.separator :: .row r :: rows ++ lines, ?_, fun df rest => ?_⟩
      · rw [printGroups, hr, Option.bind_some, hrows, Option.bind_some, hlines, Option.map_some]
      · obtain ⟨df', hdf'⟩ := hgroupRoles group.1 rest
        refine ⟨df', ?_⟩
        simp only [List.cons_append, List.append_assoc, rolesFrom_separator,
          rolesFrom_root df hchild, hid, hroles, hdf', groupRoles, List.flatMap_cons]

end Rows

section Roles

variable {g : QueryGraph}

def shownRoles (buckets : Buckets) : List (ℤ × Role) :=
  groupRoles buckets.1.entries ++ buckets.2.map (·, .standalone)

theorem mem_groupRoles {groups : List (ℤ × List ℤ)} {i : ℤ} {r : Role} :
    (i, r) ∈ groupRoles groups ↔
      (∃ ids, (i, ids) ∈ groups ∧ r = .root) ∨
        ∃ d ids, (d, ids) ∈ groups ∧ i ∈ ids ∧ r = .child d := by
  simp only [groupRoles, List.mem_flatMap, List.mem_cons, List.mem_map, Prod.mk.injEq]
  constructor
  · rintro ⟨⟨d, ids⟩, hgroup, ⟨rfl, rfl⟩ | ⟨j, hj, rfl, rfl⟩⟩
    · exact .inl ⟨ids, hgroup, rfl⟩
    · exact .inr ⟨d, ids, hgroup, hj, rfl⟩
  · rintro (⟨ids, hgroup, rfl⟩ | ⟨d, ids, hgroup, hi, rfl⟩)
    · exact ⟨(i, ids), hgroup, .inl ⟨rfl, rfl⟩⟩
    · exact ⟨(d, ids), hgroup, .inr ⟨i, hi, rfl, rfl⟩⟩

/-- Nothing is shown twice in one role, since the groups are for different data
frames. -/
theorem nodup_groupRoles {groups : List (ℤ × List ℤ)}
    (hkeys : groups.Pairwise fun x y => x.1 < y.1) (hids : ∀ group ∈ groups, group.2.Nodup) :
    (groupRoles groups).Nodup := by
  induction groups with
  | nil => exact List.nodup_nil
  | cons group groups ih =>
      obtain ⟨hlt, hkeys⟩ := List.pairwise_cons.mp hkeys
      obtain ⟨hnodup, hrest⟩ := List.forall_mem_cons.mp hids
      have hinj : Function.Injective fun i : ℤ => (i, Role.child group.1) :=
        fun i j hij => (Prod.mk.inj hij).1
      rw [groupRoles, List.flatMap_cons, ← groupRoles, List.cons_append, List.nodup_cons]
      constructor
      · rw [List.mem_append, not_or]
        constructor
        · intro hmem
          obtain ⟨j, -, hj⟩ := List.mem_map.mp hmem
          cases (Prod.mk.inj hj).2
        · intro hmem
          rcases mem_groupRoles.mp hmem with ⟨ids, hgroup, -⟩ | ⟨d, ids, -, -, hr⟩
          · exact lt_irrefl group.1 (hlt (group.1, ids) hgroup)
          · cases hr
      · refine List.nodup_append.mpr ⟨hnodup.map hinj, ih hkeys hrest, ?_⟩
        rintro x hx y hy rfl
        obtain ⟨j, -, rfl⟩ := List.mem_map.mp hx
        rcases mem_groupRoles.mp hy with ⟨ids, -, hr⟩ | ⟨d, ids, hgroup, -, hr⟩
        · cases hr
        · obtain rfl := Role.child.inj hr
          exact lt_irrefl group.1 (hlt (group.1, ids) hgroup)

theorem Bucketed.mem_entries {df : ℤ → ℤ} {k : ℕ} {buckets : Buckets} (h : Bucketed df k buckets)
    (d : ℤ) (ids : List ℤ) :
    (d, ids) ∈ buckets.1.entries ↔
      (d ≠ nodeNone ∧ ∃ i ∈ firstNodes k, df i = d) ∧ ids = members df k d := by
  rw [OrderedMap.mem_entries_iff, h.find d]
  split_ifs with hkey
  · rw [Option.some_inj, and_iff_right hkey, eq_comm]
  · exact iff_of_false nofun fun hmem => hkey hmem.1

theorem Bucketed.nodup_shownRoles {df : ℤ → ℤ} {k : ℕ} {buckets : Buckets}
    (h : Bucketed df k buckets) : (shownRoles buckets).Nodup := by
  have hinj : Function.Injective fun i : ℤ => (i, Role.standalone) :=
    fun i j hij => (Prod.mk.inj hij).1
  refine List.nodup_append.mpr ⟨nodup_groupRoles buckets.1.sorted fun group hgroup => ?_, ?_, ?_⟩
  · rw [((h.mem_entries group.1 group.2).mp hgroup).2]
    exact (nodup_firstNodes k).filter _
  · rw [h.standalone]
    exact ((nodup_firstNodes k).filter _).map hinj
  · rintro x hx y hy rfl
    obtain ⟨j, -, rfl⟩ := List.mem_map.mp hy
    rcases mem_groupRoles.mp hx with ⟨ids, -, hr⟩ | ⟨d, ids, -, -, hr⟩ <;> cases hr

theorem Bucketed.mem_shownRoles {df : ℤ → ℤ} {k : ℕ} {buckets : Buckets}
    (h : Bucketed df k buckets) (i : ℤ) (r : Role) :
    (i, r) ∈ shownRoles buckets ↔
      ((i ≠ nodeNone ∧ ∃ j ∈ firstNodes k, df j = i) ∧ r = .root) ∨
      (∃ d ≠ nodeNone, i ∈ members df k d ∧ r = .child d) ∨
      (i ∈ firstNodes k ∧ df i = nodeNone ∧ r = .standalone) := by
  rw [shownRoles, List.mem_append, mem_groupRoles, h.standalone, or_assoc]
  refine or_congr ?_ (or_congr ?_ ?_)
  · constructor
    · rintro ⟨ids, hgroup, rfl⟩
      exact ⟨((h.mem_entries i ids).mp hgroup).1, rfl⟩
    · rintro ⟨hkey, rfl⟩
      exact ⟨_, (h.mem_entries i _).mpr ⟨hkey, rfl⟩, rfl⟩
  · constructor
    · rintro ⟨d, ids, hgroup, hi, rfl⟩
      obtain ⟨hkey, rfl⟩ := (h.mem_entries d ids).mp hgroup
      exact ⟨d, hkey.1, hi, rfl⟩
    · rintro ⟨d, hd, hi, rfl⟩
      obtain ⟨hnode, hmem⟩ := List.mem_filter.mp hi
      exact ⟨d, _, (h.mem_entries d _).mpr ⟨⟨hd, i, hnode, (of_decide_eq_true hmem).1⟩, rfl⟩, hi,
        rfl⟩
  · simp only [List.mem_map, List.mem_filter, decide_eq_true_iff, Prod.mk.injEq]
    constructor
    · rintro ⟨j, ⟨hnode, hnone⟩, rfl, rfl⟩
      exact ⟨hnode, hnone, rfl⟩
    · rintro ⟨hnode, hnone, rfl⟩
      exact ⟨i, ⟨hnode, hnone⟩, rfl, rfl⟩

/-- The lines show the nodes as they are in the buckets. -/
theorem printQueryGraph_roles (hdfs : ValidDfs g.toOpGraph) (hsize : g.size < 2 ^ 31) :
    ∃ buckets lines, Bucketed (fun i => (g.operation i).df) g.size buckets ∧
      printQueryGraph g = some lines ∧
      rolesFrom (some nodeNone) lines = shownRoles buckets := by
  have hsize' : 0 + g.operations.length < 2 ^ 31 := by rwa [Nat.zero_add]
  have hdf : ∀ (j : ℕ) o, g.operations[j]? = some o → o.df = (g.operation ((0 : ℕ) + j)).df := by
    intro j o ho
    rw [Nat.cast_zero, zero_add, OpGraph.operation, index_natCast, ho, Option.getD_some]
  obtain ⟨buckets, hrun, hbucketed⟩ :=
    bucketNodes_bucketed (bucketed_nil fun i => (g.operation i).df) hdf hsize'
  rw [Nat.zero_add] at hbucketed
  rw [Nat.cast_zero] at hrun
  have hnode : ∀ i, i ∈ firstNodes g.operations.length ↔ g.Valid i := fun i => mem_firstNodes
  have hgroups : ∀ group ∈ buckets.1.entries,
      g.Valid group.1 ∧ ∀ id ∈ group.2, g.Valid id := by
    intro group hgroup
    obtain ⟨⟨hd, i, hi, hdf⟩, hids⟩ := (hbucketed.mem_entries group.1 group.2).mp hgroup
    refine ⟨?_, fun id hid => ?_⟩
    · exact hdf ▸ (hdfs i ((hnode i).mp hi)).resolve_left (hdf ▸ hd)
    · rw [hids] at hid
      exact (hnode id).mp (List.mem_filter.mp hid).1
  have halone : ∀ id ∈ buckets.2, g.Valid id := by
    intro id hid
    rw [hbucketed.standalone] at hid
    exact (hnode id).mp (List.mem_filter.mp hid).1
  obtain ⟨groups, hgroupLines, hgroupRoles⟩ := printGroups_roles hdfs hgroups
  have hread : ∀ (r : PrintedRow) lines, r.isChild = false →
      rolesFrom none (.row r :: lines) = (r.id, .standalone) :: rolesFrom none lines :=
    fun r lines _ => rfl
  obtain ⟨rows, hrows, hrowRoles⟩ := printRows_roles hdfs hread halone
  obtain ⟨df', hdf'⟩ := hgroupRoles nodeNone
    ((if buckets.2 = [] then [] else .separator :: .standaloneTitle :: rows) ++ [.rule])
  have hprint : printQueryGraph g = some ([.rule, .title, .rule] ++ groups ++
      (if buckets.2 = [] then [] else .separator :: .standaloneTitle :: rows) ++ [.rule]) := by
    rw [printQueryGraph, hrun, Option.bind_some, hgroupLines, Option.bind_some, hrows,
      Option.map_some]
  refine ⟨buckets, _, hbucketed, hprint, ?_⟩
  rw [List.append_assoc, List.append_assoc]
  change rolesFrom (some nodeNone) (groups ++ _) = _
  rw [hdf', shownRoles]
  congr 1
  split_ifs with hnil
  · rw [hnil]
    rfl
  · change rolesFrom none (rows ++ [.rule]) = _
    rw [hrowRoles]
    exact List.append_nil _

end Roles

theorem role_eq_root_iff {g : OpGraph} {i : ℤ} : role g i = .root ↔ (g.operation i).df = i := by
  rw [role]
  split_ifs with hroot hdf
  · exact iff_of_true rfl hroot
  · exact iff_of_false nofun hroot
  · exact iff_of_false nofun hroot

theorem role_eq_child_iff {g : OpGraph} {i d : ℤ} :
    role g i = .child d ↔ (g.operation i).df = d ∧ i ≠ d ∧ d ≠ nodeNone := by
  rw [role]
  split_ifs with hroot hdf
  · exact iff_of_false nofun fun h => h.2.1 (hroot.symm.trans h.1)
  · rw [Role.child.injEq]
    constructor
    · rintro rfl
      exact ⟨rfl, Ne.symm hroot, hdf⟩
    · exact fun h => h.1
  · exact iff_of_false nofun fun h => hdf (h.1.trans_ne h.2.2)

theorem role_eq_standalone_iff {g : OpGraph} {i : ℤ} (hi : g.Valid i) :
    role g i = .standalone ↔ (g.operation i).df = nodeNone := by
  rw [role]
  split_ifs with hroot hdf
  · exact iff_of_false nofun (hroot.trans_ne (ne_nodeNone_of_nonneg hi.1))
  · exact iff_of_false nofun hdf
  · exact iff_of_true rfl (not_not.mp hdf)

/-- The groups are opened by the nodes that are to open them, before any other node is put
into them. -/
theorem Bucketed.forall_mem_shownRoles_iff {g : OpGraph} {buckets : Buckets}
    (h : Bucketed (fun i => (g.operation i).df) g.size buckets) (hdfs : ValidDfs g) :
    (∀ i r, (i, r) ∈ shownRoles buckets ↔ g.Valid i ∧ role g i = r) ↔ DataFramesLead g := by
  constructor
  · intro hroles i hi hdf
    by_cases hroot : (g.operation i).df = i
    · rw [hroot, hroot]
      exact ⟨rfl, le_refl i⟩
    · have hopened : ((g.operation i).df, Role.root) ∈ shownRoles buckets :=
        (h.mem_shownRoles _ _).mpr (.inl ⟨⟨hdf, i, mem_firstNodes.mpr hi, rfl⟩, rfl⟩)
      have hself := role_eq_root_iff.mp ((hroles _ _).mp hopened).2
      have hchild : (i, Role.child (g.operation i).df) ∈ shownRoles buckets :=
        (hroles _ _).mpr ⟨hi, role_eq_child_iff.mpr ⟨rfl, Ne.symm hroot, hdf⟩⟩
      rcases (h.mem_shownRoles _ _).mp hchild with ⟨-, hr⟩ | ⟨d, -, hmem, hr⟩ | ⟨-, -, hr⟩
      · cases hr
      · obtain rfl := Role.child.inj hr
        have hmem' := (of_decide_eq_true (List.mem_filter.mp hmem).2).2.2
        exact ⟨hself, le_of_lt (hmem' ((hdfs i hi).resolve_left hdf).2 hself)⟩
      · cases hr
  · intro hopened i r
    rw [h.mem_shownRoles]
    constructor
    · rintro (⟨⟨hi, j, hj, hdf⟩, rfl⟩ | ⟨d, hd, hmem, rfl⟩ | ⟨hnode, hnone, rfl⟩)
      · have hj' : g.Valid j := mem_firstNodes.mp hj
        have hvalid : g.Valid i := hdf ▸ (hdfs j hj').resolve_left (hdf ▸ hi)
        exact ⟨hvalid, role_eq_root_iff.mpr (hdf ▸ (hopened j hj' (hdf ▸ hi)).1)⟩
      · obtain ⟨hnode, hmem⟩ := List.mem_filter.mp hmem
        obtain ⟨hdf, hne, -⟩ := of_decide_eq_true hmem
        exact ⟨mem_firstNodes.mp hnode, role_eq_child_iff.mpr ⟨hdf, hne, hd⟩⟩
      · have hvalid : g.Valid i := mem_firstNodes.mp hnode
        exact ⟨hvalid, (role_eq_standalone_iff hvalid).mpr hnone⟩
    · rintro ⟨hi, hr⟩
      have hnode := mem_firstNodes.mpr hi
      cases r with
      | root =>
          have hroot := role_eq_root_iff.mp hr
          exact .inl ⟨⟨ne_nodeNone_of_nonneg hi.1, i, hnode, hroot⟩, rfl⟩
      | child d =>
          obtain ⟨hdf, hne, hd⟩ := role_eq_child_iff.mp hr
          have hle := (hopened i hi (hdf ▸ hd)).2
          rw [hdf] at hle
          refine .inr (.inl ⟨d, hd, List.mem_filter.mpr ⟨hnode, ?_⟩, rfl⟩)
          exact decide_eq_true ⟨hdf, hne, fun _ _ => lt_of_le_of_ne hle (Ne.symm hne)⟩
      | standalone => exact .inr (.inr ⟨hnode, (role_eq_standalone_iff hi).mp hr, rfl⟩)

/-- Every node is shown once and as what it is exactly when the data frames lead their
groups, as long as an `int` can count the nodes. -/
theorem printsOnce_iff_lead {g : QueryGraph} (hdfs : ValidDfs g.toOpGraph) :
    PrintsOnce g ↔ g.size < 2 ^ 31 ∧ DataFramesLead g.toOpGraph := by
  by_cases hsize : g.size < 2 ^ 31
  · rw [and_iff_right hsize]
    obtain ⟨buckets, lines, hbucketed, hprint, hroles⟩ := printQueryGraph_roles hdfs hsize
    have hnodup : ((firstNodes g.size).map fun i => (i, role g.toOpGraph i)).Nodup :=
      (nodup_firstNodes g.size).map fun i j hij => (Prod.mk.inj hij).1
    have hmem : ∀ i r, (i, r) ∈ (firstNodes g.size).map (fun i => (i, role g.toOpGraph i)) ↔
        g.Valid i ∧ role g.toOpGraph i = r := by
      intro i r
      rw [List.mem_map]
      constructor
      · rintro ⟨j, hj, hjr⟩
        obtain ⟨rfl, rfl⟩ := Prod.mk.inj hjr
        exact ⟨mem_firstNodes.mp hj, rfl⟩
      · rintro ⟨hi, rfl⟩
        exact ⟨i, mem_firstNodes.mpr hi, rfl⟩
    have hprints : PrintsOnce g ↔ ∀ i r, (i, r) ∈ shownRoles buckets ↔
        g.Valid i ∧ role g.toOpGraph i = r := by
      rw [PrintsOnce]
      simp only [hprint, Option.some.injEq, exists_eq_left', hroles,
        List.perm_ext_iff_of_nodup hbucketed.nodup_shownRoles hnodup, Prod.forall, hmem]
    rw [hprints, hbucketed.forall_mem_shownRoles_iff hdfs]
  · refine iff_of_false ?_ fun h => hsize h.1
    rintro ⟨lines, hprint, -⟩
    have hlong : bucketNodes ((0 : ℕ) : ℤ) g.operations (∅, []) = none :=
      bucketNodes_of_long (by omega) (by unfold OpGraph.size at hsize; omega)
    rw [Nat.cast_zero] at hlong
    rw [printQueryGraph, hlong] at hprint
    cases hprint

end Query

end DistStorage
