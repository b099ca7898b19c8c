import TradeBridge.IniArchive

/-!
# What `serialize` passes to the archives

The four archives of `ini.h` are written for one function `serialize(archive, data)`, which calls
the archive with group names and passes it items in any order (`ArchiveOp`). `saveIni` and `loadIni`
of `IniArchive` take the items of one group; here `serialize` is any such sequence, for
`ptree_ini_sarchive` (`print_ini`) and `initialize_archive` (`initialize_ini`) as well.

An archive keeps the first group name that is not empty (`firstGroup`), so the items of all groups
are saved under the first one. Between saving and loading stands the property tree: the text of the
file, which `write_ini` makes of it and `read_ini` trims and parses, is left out. Of a value
`print_ini` shows the text that `<<` writes, and two values may have one text.

Results:
* `saveSerialize_eq`, `loadSerialize_eq`: only the first group name counts.
* **`serialize_restores_iff`**: through the tree the data is restored iff each item reads its value
  from what the last item of its name was saved as, whatever group `serialize` named before it.
* **`print_ini_eq_iff`**: two data print the same iff the texts of what is not hidden are the same.
* **`load_absent_iff`**: from a tree without the section `load_ini` does what `initialize_ini` does,
  iff every item has a default.
-/

namespace TradeBridge

open TradeBridge.Lib

/-- One call of `serialize` on its archive: `ar(group_name)` or `ar & item`. -/
inductive ArchiveOp (ι : Type*) where
  | call (groupName : Bytes)
  | item (i : ι)

variable {τ : Type} {ι : Type*}

/-- The items that are passed, in order. -/
def opItems : List (ArchiveOp ι) → List ι
  | [] => []
  | .call _ :: ops => opItems ops
  | .item i :: ops => i :: opItems ops

/-- The same calls with other items. -/
def mapOps (f : ι → ι) : List (ArchiveOp ι) → List (ArchiveOp ι)
  | [] => []
  | .call groupName :: ops => .call groupName :: mapOps f ops
  | .item i :: ops => .item (f i) :: mapOps f ops

/-- The group name an archive has when the first item is passed to it. -/
def firstGroup : Bytes → List (ArchiveOp ι) → Bytes
  | groupName, [] => groupName
  | groupName, .call name :: ops => firstGroup (setGroupName groupName name).1 ops
  | groupName, .item _ :: _ => groupName

/-! ## `ini.h` -/

namespace PTree

/-- `serialize(ar, data)` with a `ptree_ini_oarchive`, until an item throws. -/
def saveOps (P : PTree τ) : OArchive τ → List (ArchiveOp ConfigItem) → OArchive τ × Option IniError
  | ar, [] => (ar, none)
  | ar, .call groupName :: ops => P.saveOps (ar.call groupName) ops
  | ar, .item item :: ops =>
    match P.save ar item with
    | .error e => (ar, some e)
    | .ok ar' => P.saveOps ar' ops

/-- `serialize(ar, data)` with a `ptree_ini_iarchive`, until an item throws. -/
def loadOps (P : PTree τ) : IArchive τ → List (ArchiveOp ConfigItem) →
    List ConfigItem × Except IniError (IArchive τ)
  | ar, [] => ([], .ok ar)
  | ar, .call groupName :: ops => P.loadOps (ar.call groupName) ops
  | ar, .item item :: ops =>
    match P.load ar item with
    | .error e => (item :: opItems ops, .error e)
    | .ok (ar', item') => Prod.map (List.cons item') id (P.loadOps ar' ops)

/-- `ini::save_ini` on the tree of the file. -/
def saveSerialize (P : PTree τ) (tree : τ) (groupName : Bytes) (ops : List (ArchiveOp ConfigItem)) :
    τ × Option IniError :=
  Prod.map OArchive.tree id (P.saveOps ((OArchive.mk [] tree).call groupName) ops)

/-- `ini::load_ini` on the tree of the file. -/
def loadSerialize (P : PTree τ) (tree : τ) (groupName : Bytes) (ops : List (ArchiveOp ConfigItem)) :
    List ConfigItem × Except IniError Bool :=
  Prod.map id (Except.map IArchive.hasValues)
    (P.loadOps ((IArchive.mk [] false tree).call groupName) ops)

end PTree

/-- An item for `ptree_ini_sarchive`; `text` is what `<<` writes for its value. -/
structure PrintItem where
  name : Bytes
  hide : Bool
  text : Bytes

/-- `ptree_ini_sarchive`, with what it has written to the stream. -/
structure SArchive where
  groupName : Bytes
  stream : Bytes

/-- `ar(group_name)`. -/
def SArchive.call (ar : SArchive) (groupName : Bytes) : SArchive :=
  match setGroupName ar.groupName groupName with
  | (name, true) => ⟨name, ar.stream ++ (bytes "[" ++ name ++ bytes "]" ++ bytes "\t")⟩
  | (name, false) => ⟨name, ar.stream⟩

/-- What is written for an item. -/
def PrintItem.segment (item : PrintItem) : Bytes :=
  item.name ++ bytes "=" ++ (if item.hide then bytes "******" else item.text) ++ bytes "\t"

/-- `ar & item`. -/
def SArchive.print (ar : SArchive) (item : PrintItem) : Except IniError SArchive :=
  match checkGroupName ar.groupName with
  | .error e => .error e
  | .ok () => .ok { ar with stream := ar.stream ++ item.segment }

/-- `serialize(ar, data)` with a `ptree_ini_sarchive`. -/
def printOps : SArchive → List (ArchiveOp PrintItem) → Except IniError SArchive
  | ar, [] => .ok ar
  | ar, .call groupName :: ops => printOps (ar.call groupName) ops
  | ar, .item item :: ops =>
    match ar.print item with
    | .error e => .error e
    | .ok ar' => printOps ar' ops

/-- `ini::print_ini(group_name, data)`. -/
def printIni (groupName : Bytes) (ops : List (ArchiveOp PrintItem)) : Except IniError Bytes :=
  Except.map SArchive.stream (printOps ((SArchive.mk [] []).call groupName) ops)

theorem setGroupName_of_ne {groupName : Bytes} (h : groupName ≠ []) (other : Bytes) :
    setGroupName groupName other = (groupName, false) := by
  unfold setGroupName
  rw [List.isEmpty_eq_false_iff.mpr h]
  rfl

theorem setGroupName_nil (groupName : Bytes) : (setGroupName [] groupName).1 = groupName := by
  cases groupName <;> rfl

theorem firstGroup_of_ne : ∀ (ops : List (ArchiveOp ι)) {groupName : Bytes}, groupName ≠ [] →
    firstGroup groupName ops = groupName
  | [], _, _ => rfl
  | .item _ :: _, _, _ => rfl
  | .call name :: ops, groupName, h => by
    rw [firstGroup, setGroupName_of_ne h]
    exact firstGroup_of_ne ops h

theorem checkGroupName_ok {groupName : Bytes} (h : checkGroupName groupName = .ok ()) :
    groupName ≠ [] := by
  rintro rfl
  cases h

theorem save_group {P : PTree τ} {ar ar' : OArchive τ} {item : ConfigItem}
    (h : P.save ar item = .ok ar') : ar.groupName ≠ [] ∧ ar'.groupName = ar.groupName := by
  unfold PTree.save at h
  split at h
  · cases h
  · rename_i hcheck
    split at h
    · cases h
    · obtain rfl := Except.ok.inj h
      exact ⟨checkGroupName_ok hcheck, rfl⟩

theorem load_group {P : PTree τ} {ar : IArchive τ} {item : ConfigItem}
    {r : IArchive τ × ConfigItem} (h : P.load ar item = .ok r) :
    ar.groupName ≠ [] ∧ r.1.groupName = ar.groupName := by
  unfold PTree.load at h
  split at h
  · cases h
  · rename_i hcheck
    simp only at h
    split at h
    · cases h
    · obtain rfl := Except.ok.inj h
      exact ⟨checkGroupName_ok hcheck, rfl⟩

/-- What is saved depends on the first group only: behind it the calls do nothing. -/
theorem saveOps_eq (P : PTree τ) : ∀ (ops : List (ArchiveOp ConfigItem)) (groupName : Bytes)
    (tree : τ), Prod.map OArchive.tree id (P.saveOps ⟨groupName, tree⟩ ops) =
      Prod.map OArchive.tree id (P.saveAll ⟨firstGroup groupName ops, tree⟩ (opItems ops))
  | [], _, _ => rfl
  | .call name :: ops, groupName, tree => saveOps_eq P ops (setGroupName groupName name).1 tree
  | .item item :: ops, groupName, tree => by
    rw [opItems, firstGroup, PTree.saveOps, PTree.saveAll]
    cases hsave : P.save ⟨groupName, tree⟩ item with
    | error e => rfl
    | ok ar' =>
      obtain ⟨hne, hname⟩ := save_group hsave
      obtain ⟨name, tree'⟩ := ar'
      obtain rfl : name = groupName := hname
      have ih := saveOps_eq P ops name tree'
      rwa [firstGroup_of_ne ops hne] at ih

theorem loadOps_eq (P : PTree τ) : ∀ (ops : List (ArchiveOp ConfigItem)) (groupName : Bytes)
    (hasValues : Bool) (tree : τ),
    Prod.map id (Except.map IArchive.hasValues) (P.loadOps ⟨groupName, hasValues, tree⟩ ops) =
      Prod.map id (Except.map IArchive.hasValues)
        (P.loadAll ⟨firstGroup groupName ops, hasValues, tree⟩ (opItems ops))
  | [], _, _, _ => rfl
  | .call name :: ops, groupName, hasValues, tree =>
    loadOps_eq P ops (setGroupName groupName name).1 hasValues tree
  | .item item :: ops, groupName, hasValues, tree => by
    rw [opItems, firstGroup, PTree.loadOps, PTree.loadAll]
    cases hload : P.load ⟨groupName, hasValues, tree⟩ item with
    | error e => rfl
    | ok r =>
      obtain ⟨hne, hname⟩ := load_group hload
      obtain ⟨⟨name, hasValues', tree'⟩, item'⟩ := r
      obtain rfl : name = groupName := hname
      have ih := loadOps_eq P ops name hasValues' tree'
      rw [firstGroup_of_ne ops hne] at ih
      have hcomm : ∀ x : List ConfigItem × Except IniError (IArchive τ),
          Prod.map id (Except.map IArchive.hasValues) (Prod.map (List.cons item') id x) =
            Prod.map (List.cons item') id (Prod.map id (Except.map IArchive.hasValues) x) :=
        fun _ => rfl
      show Prod.map id _ (Prod.map (List.cons item') id (P.loadOps _ ops)) =
        Prod.map id _ (Prod.map (List.cons item') id (P.loadAll _ (opItems ops)))
      rw [hcomm, hcomm, ih]

/-- **Saving depends on the first group only.** -/
theorem saveSerialize_eq (P : PTree τ) (tree : τ) (groupName : Bytes)
    (ops : List (ArchiveOp ConfigItem)) :
    P.saveSerialize tree groupName ops =
      P.saveIni tree (firstGroup groupName ops) (opItems ops) := by
  unfold PTree.saveSerialize PTree.saveIni OArchive.call
  simp only [setGroupName_nil]
  exact saveOps_eq P ops groupName tree

/-- **So does loading.** -/
theorem loadSerialize_eq (P : PTree τ) (tree : τ) (groupName : Bytes)
    (ops : List (ArchiveOp ConfigItem)) :
    P.loadSerialize tree groupName ops =
      P.loadIni tree (firstGroup groupName ops) (opItems ops) := by
  unfold PTree.loadSerialize PTree.loadIni IArchive.call
  simp only [setGroupName_nil]
  exact loadOps_eq P ops groupName false tree

/-! ## When loading restores what was saved -/

/-- What the entry of a name holds after the items were saved: the data of the last one with it. -/
def savedAs : List ConfigItem → Bytes → Option Bytes
  | [], _ => none
  | item :: items, name =>
    (savedAs items name).or (if item.name = name then some item.data else none)

/-- What `get` makes of the data of an entry: the value, the default, or `ptree_bad_data`. -/
def ConfigItem.read (item : ConfigItem) (data : Bytes) : Except IniError item.type :=
  match item.translator.getValue data, item.defaultValue with
  | some value, _ => .ok value
  | none, some defaultValue => .ok defaultValue
  | none, none => .error .badData

/-- The item has its value from the data. -/
def ConfigItem.Reads (item : ConfigItem) (data : Bytes) : Prop := item.read data = .ok item.link

/-- Saving throws nothing, and loading restores every item, into whatever it refers to by then. -/
structure Restores (P : PTree τ) (groupName : Bytes) (ops : List (ArchiveOp ConfigItem))
    (tree : τ) : Prop where
  saves : (P.saveSerialize tree groupName ops).2 = none
  loads : ∀ other : (item : ConfigItem) → item.type,
    P.loadSerialize (P.saveSerialize tree groupName ops).1 groupName
      (mapOps (fun item => { item with link := other item }) ops) =
      (opItems ops, .ok !(opItems ops).isEmpty)

variable {P : PTree τ} {groupName : Bytes}

theorem opItems_mapOps (f : ι → ι) : ∀ ops : List (ArchiveOp ι),
    opItems (mapOps f ops) = (opItems ops).map f
  | [] => rfl
  | .call _ :: ops => opItems_mapOps f ops
  | .item i :: ops => congrArg (List.cons (f i)) (opItems_mapOps f ops)

theorem firstGroup_mapOps (f : ι → ι) : ∀ (ops : List (ArchiveOp ι)) (groupName : Bytes),
    firstGroup groupName (mapOps f ops) = firstGroup groupName ops
  | [], _ => rfl
  | .call name :: ops, groupName => firstGroup_mapOps f ops (setGroupName groupName name).1
  | .item _ :: _, _ => rfl

theorem savedAs_eq_none_iff {items : List ConfigItem} {name : Bytes} :
    savedAs items name = none ↔ ∀ item ∈ items, item.name ≠ name := by
  induction items with
  | nil => exact ⟨fun _ _ h => absurd h List.not_mem_nil, fun _ => rfl⟩
  | cons item items ih =>
    rw [savedAs, Option.or_eq_none_iff, ih, List.forall_mem_cons, and_comm]
    refine and_congr_left fun _ => ?_
    by_cases h : item.name = name <;> simp [h]

/-- **The last item of a name is the one that is found.** -/
theorem lookup_savedAs (hP : P.Documented) {name data : Bytes} :
    ∀ {items : List ConfigItem} {tree : τ}, savedAs items name = some data →
      P.lookup (P.putAll tree (itemEntries groupName items)) [groupName, name] = some data
  | [], _, h => by cases h
  | item :: items, tree, h => by
    show P.lookup (P.putAll (P.put tree [groupName, item.name] item.data)
      (itemEntries groupName items)) [groupName, name] = some data
    rw [savedAs] at h
    cases hrest : savedAs items name with
    | some data' =>
      rw [hrest, Option.some_or] at h
      obtain rfl := Option.some.inj h
      exact lookup_savedAs hP hrest
    | none =>
      rw [hrest, Option.none_or] at h
      split at h
      · rename_i hname
        obtain rfl := Option.some.inj h
        rw [hname]
        refine Store.lookup_putAll_of_notMem hP.lawful ?_ (hP.lawful.put_self _ _ _)
        rw [map_fst_itemEntries]
        intro hmem
        obtain ⟨other, hother, heq⟩ := List.mem_map.mp hmem
        exact savedAs_eq_none_iff.mp hrest other hother (List.cons.inj (List.cons.inj heq).2).1
      · cases h

theorem ConfigItem.set_eq_iff {item : ConfigItem} {v₀ v : item.type} :
    ({ item with link := v₀ } : ConfigItem).set v = item ↔ v = item.link := by
  constructor
  · intro h
    obtain ⟨type, translator, name, link, defaultValue⟩ := item
    have hmk : ConfigItem.mk type translator name v defaultValue =
        ConfigItem.mk type translator name link defaultValue := h
    injection hmk
  · rintro rfl
    rfl

theorem ConfigItem.read_link (item : ConfigItem) (v : item.type) (data : Bytes) :
    ({ item with link := v } : ConfigItem).read data = item.read data := by
  obtain ⟨type, translator, name, link, defaultValue⟩ := item
  simp only [ConfigItem.read]
  cases translator.getValue data <;> cases defaultValue <;> rfl

/-- The value that is loaded where the entry holds `data`. -/
theorem value_of_lookup {tree : τ} {name data : Bytes} {item : ConfigItem}
    (h : P.lookup tree (P.path name) = some data) : P.value tree name item = item.read data := by
  unfold PTree.value PTree.getOr PTree.get ConfigItem.read
  rw [h]
  cases hget : item.translator.getValue data <;> cases item.defaultValue <;> simp only [hget]

theorem load_of_lookup (hP : P.Documented) (hgroup : IsKey groupName) {item : ConfigItem}
    (hname : IsKey item.name) {tree : τ} {data : Bytes}
    (hdata : P.lookup tree [groupName, item.name] = some data) (hasValues : Bool)
    (other : item.type) :
    P.load ⟨groupName, hasValues, tree⟩ { item with link := other } =
      match item.read data with
      | .error e => .error e
      | .ok value =>
        .ok (⟨groupName, true, tree⟩, ({ item with link := other } : ConfigItem).set value) := by
  have hpath : P.path (makeName groupName { item with link := other }) = [groupName, item.name] :=
    path_makeName hP hgroup hname
  have hvalue : P.value tree (makeName groupName { item with link := other })
      { item with link := other } = ({ item with link := other } : ConfigItem).read data :=
    value_of_lookup (hpath ▸ hdata)
  unfold PTree.load
  simp only
  rw [checkGroupName_of_isKey hgroup, hpath, hdata, Option.isSome_some, Bool.or_true, hvalue]
  cases hread : item.read data with
  | error e =>
    rw [(item.read_link other data).trans hread]
  | ok value =>
    rw [(item.read_link other data).trans hread]

/-- **The items are restored iff each reads its value** from its entry. -/
theorem loadAll_restores_iff (hP : P.Documented) (hgroup : IsKey groupName) {tree : τ}
    (data : ConfigItem → Bytes) (other : (item : ConfigItem) → item.type) :
    ∀ {items : List ConfigItem} {hasValues : Bool}, (∀ item ∈ items, IsKey item.name) →
      (∀ item ∈ items, P.lookup tree [groupName, item.name] = some (data item)) →
      (Prod.map id (Except.map IArchive.hasValues) (P.loadAll ⟨groupName, hasValues, tree⟩
            (items.map fun item => { item with link := other item })) =
          (items, .ok (hasValues || !items.isEmpty)) ↔
        ∀ item ∈ items, item.Reads (data item))
  | [], hasValues, _, _ => by simp [PTree.loadAll, Except.map]
  | item :: items, hasValues, hnames, hdata => by
    obtain ⟨hname, hnames⟩ := List.forall_mem_cons.mp hnames
    obtain ⟨hitem, hdata⟩ := List.forall_mem_cons.mp hdata
    have ih := @loadAll_restores_iff hP hgroup tree data other items true hnames hdata
    rw [List.map_cons, PTree.loadAll, load_of_lookup hP hgroup hname hitem, List.forall_mem_cons,
      ← ih]
    unfold ConfigItem.Reads
    cases hread : item.read (data item) with
    | error e => simp [Except.map]
    | ok value =>
      simp only [Prod.ext_iff, Prod.map_fst, Prod.map_snd, List.cons.injEq, Except.ok.injEq,
        ConfigItem.set_eq_iff, id, List.isEmpty_cons, Bool.not_false, Bool.or_true, and_assoc,
        Bool.true_or]

/-- **Saving to a tree and loading from it restores the data iff each item reads its value from what
the last item of its name was saved as.** For every `serialize` whose names are keys of a path, every
tree and every value that its own translator reads back: the group names behind the first one do not
keep two items of one name apart. -/
theorem serialize_restores_iff (hP : P.Documented) {ops : List (ArchiveOp ConfigItem)}
    (hgroup : IsKey (firstGroup groupName ops)) (hnames : ∀ item ∈ opItems ops, IsKey item.name)
    (hvalues : ∀ item ∈ opItems ops, item.RoundTrips) (tree : τ) :
    Restores P groupName ops tree ↔
      ∀ item ∈ opItems ops, item.Reads ((savedAs (opItems ops) item.name).getD []) := by
  have hsave : P.saveSerialize tree groupName ops =
      (P.putAll tree (itemEntries (firstGroup groupName ops) (opItems ops)), none) := by
    rw [saveSerialize_eq, saveIni_eq hP hgroup hnames hvalues]
  have hdata : ∀ item ∈ opItems ops,
      P.lookup (P.putAll tree (itemEntries (firstGroup groupName ops) (opItems ops)))
        [firstGroup groupName ops, item.name] =
          some ((savedAs (opItems ops) item.name).getD []) := by
    intro item hitem
    refine lookup_savedAs hP ?_
    cases hs : savedAs (opItems ops) item.name with
    | none => exact absurd rfl (savedAs_eq_none_iff.mp hs item hitem)
    | some data => rfl
  have hload : ∀ other : (item : ConfigItem) → item.type,
      P.loadSerialize (P.saveSerialize tree groupName ops).1 groupName
          (mapOps (fun item => { item with link := other item }) ops) =
        (opItems ops, .ok !(opItems ops).isEmpty) ↔
      ∀ item ∈ opItems ops, item.Reads ((savedAs (opItems ops) item.name).getD []) := by
    intro other
    have hrestores := @loadAll_restores_iff _ _ _ hP hgroup _
      (fun item => (savedAs (opItems ops) item.name).getD []) other _ false hnames hdata
    rw [← hrestores, hsave, loadSerialize_eq, firstGroup_mapOps, opItems_mapOps, PTree.loadIni,
      IArchive.call, setGroupName_nil, Bool.false_or]
  refine ⟨fun h => (hload fun item => item.link).mp (h.loads _), fun h => ⟨?_, fun other => ?_⟩⟩
  · rw [hsave]
  · exact (hload other).mpr h

/-- Two groups with an item of one name. -/
def levelTwice : List (ArchiveOp ConfigItem) := [
  .call (bytes "log"),
  .item ⟨Bytes, textTranslator, bytes "level", bytes "info", none⟩,
  .call (bytes "net"),
  .item ⟨Bytes, textTranslator, bytes "level", bytes "debug", none⟩]

/-- Both are saved as the level of the first group. -/
theorem level_twice_collides : ¬ Restores ptree [] levelTwice otherSection := by
  intro h
  have hitems : ∀ item ∈ opItems levelTwice, IsKey item.name ∧ item.RoundTrips :=
    List.forall_iff_forall_mem.mp
      ⟨⟨⟨by decide, by decide⟩, ⟨_, rfl, rfl⟩⟩, ⟨⟨by decide, by decide⟩, ⟨_, rfl, rfl⟩⟩⟩
  have hreads := (serialize_restores_iff ptree_documented ⟨by decide, by decide⟩
    (fun item hi => (hitems item hi).1) (fun item hi => (hitems item hi).2) otherSection).mp h _
    List.mem_cons_self
  have hdebug : (Except.ok (bytes "debug") : Except IniError Bytes) = .ok (bytes "info") := hreads
  exact absurd (Except.ok.inj hdebug) (by decide)

/-! ## A file without the section -/

/-- The text that is printed of the value. -/
def PrintItem.shown (item : PrintItem) : Option Bytes := if item.hide then none else some item.text

/-- The data of one `serialize`: other texts behind the same calls, names and flags. -/
inductive SameSerialize : List (ArchiveOp PrintItem) → List (ArchiveOp PrintItem) → Prop
  | nil : SameSerialize [] []
  | call {a b : List (ArchiveOp PrintItem)} (groupName : Bytes) (h : SameSerialize a b) :
      SameSerialize (.call groupName :: a) (.call groupName :: b)
  | item {a b : List (ArchiveOp PrintItem)} (name : Bytes) (hide : Bool) (x y : Bytes)
      (h : SameSerialize a b) :
      SameSerialize (.item ⟨name, hide, x⟩ :: a) (.item ⟨name, hide, y⟩ :: b)

/-- The tab behind an item. -/
def tab : UInt8 := 9

/-- No text that is shown has a tab in it. -/
def TabFree (ops : List (ArchiveOp PrintItem)) : Prop :=
  ∀ item ∈ opItems ops, item.hide = false → tab ∉ item.text

/-- The archive with a group writes one item after the other. -/
theorem printOps_of_ne : ∀ (ops : List (ArchiveOp PrintItem)) (ar : SArchive), ar.groupName ≠ [] →
    printOps ar ops =
      .ok ⟨ar.groupName, ar.stream ++ (opItems ops).flatMap PrintItem.segment⟩
  | [], ar, _ => by
    rw [printOps, opItems, List.flatMap_nil, List.append_nil]
  | .call name :: ops, ar, h => by
    have hcall : ar.call name = ar := by
      unfold SArchive.call
      rw [setGroupName_of_ne h]
    rw [printOps, hcall]
    exact printOps_of_ne ops ar h
  | .item item :: ops, ar, h => by
    have hprint : ar.print item = .ok { ar with stream := ar.stream ++ item.segment } := by
      unfold SArchive.print checkGroupName
      rw [List.isEmpty_eq_false_iff.mpr h]
      rfl
    rw [printOps, hprint, opItems, List.flatMap_cons, ← List.append_assoc]
    exact printOps_of_ne ops { ar with stream := ar.stream ++ item.segment } h

/-- The header of the first group. -/
def groupHeader (groupName : Bytes) : Bytes := bytes "[" ++ groupName ++ bytes "]" ++ bytes "\t"

theorem call_of_empty {groupName : Bytes} (h : groupName ≠ []) (stream : Bytes) :
    SArchive.call ⟨[], stream⟩ groupName = ⟨groupName, stream ++ groupHeader groupName⟩ := by
  unfold SArchive.call setGroupName groupHeader
  rw [List.isEmpty_eq_false_iff.mpr h]
  rfl

theorem call_of_nil (ar : SArchive) : ar.call [] = ar := by
  unfold SArchive.call setGroupName
  simp

/-- **What is printed**: the first group, and the items one after the other. -/
theorem printOps_of_nil : ∀ (ops : List (ArchiveOp PrintItem)), firstGroup [] ops ≠ [] →
    printOps ⟨[], []⟩ ops = .ok ⟨firstGroup [] ops,
      groupHeader (firstGroup [] ops) ++ (opItems ops).flatMap PrintItem.segment⟩
  | [], h => absurd rfl h
  | .item _ :: _, h => absurd rfl h
  | .call name :: ops, h => by
    rw [firstGroup, setGroupName_nil] at h ⊢
    rw [printOps, opItems]
    by_cases hname : name = []
    · subst hname
      rw [call_of_nil]
      exact printOps_of_nil ops h
    · rw [call_of_empty hname, firstGroup_of_ne ops hname, List.nil_append]
      exact printOps_of_ne ops _ hname

theorem printIni_eq {ops : List (ArchiveOp PrintItem)} (h : firstGroup groupName ops ≠ []) :
    printIni groupName ops = .ok (groupHeader (firstGroup groupName ops) ++
      (opItems ops).flatMap PrintItem.segment) := by
  have hcall : firstGroup [] (.call groupName :: ops) = firstGroup groupName ops := by
    rw [firstGroup, setGroupName_nil]
  have hops := printOps_of_nil (.call groupName :: ops) (hcall ▸ h)
  rw [hcall] at hops
  unfold printIni
  show Except.map _ (printOps ⟨[], []⟩ (.call groupName :: ops)) = _
  rw [hops]
  rfl

/-- Texts without a tab are told apart in front of one. -/
theorem append_tab_inj {x y r r' : Bytes} (hx : tab ∉ x) (hy : tab ∉ y) :
    x ++ tab :: r = y ++ tab :: r' ↔ x = y ∧ r = r' := by
  induction x generalizing y with
  | nil =>
    cases y with
    | nil => simp
    | cons b y =>
      have hb : tab ≠ b := fun h => hy (h ▸ List.mem_cons_self)
      simp [hb]
  | cons a x ih =>
    cases y with
    | nil =>
      have ha : a ≠ tab := fun h => hx (h ▸ List.mem_cons_self)
      simp [ha]
    | cons b y =>
      have := ih (fun h => hx (List.mem_cons_of_mem _ h)) fun h => hy (List.mem_cons_of_mem _ h)
      simp [this, and_assoc]

theorem segment_append (name : Bytes) (hide : Bool) (x rest : Bytes) :
    PrintItem.segment ⟨name, hide, x⟩ ++ rest =
      name ++ bytes "=" ++ ((if hide then bytes "******" else x) ++ tab :: rest) := by
  unfold PrintItem.segment
  rw [List.append_assoc, List.append_assoc]
  rfl

/-- The items print the same iff the same texts are shown. -/
theorem segments_eq_iff {a b : List (ArchiveOp PrintItem)} (h : SameSerialize a b)
    (ha : TabFree a) (hb : TabFree b) :
    (opItems a).flatMap PrintItem.segment = (opItems b).flatMap PrintItem.segment ↔
      (opItems a).map PrintItem.shown = (opItems b).map PrintItem.shown := by
  induction h with
  | nil => exact ⟨fun _ => rfl, fun _ => rfl⟩
  | call groupName h ih => exact ih ha hb
  | @item a b name hide x y h ih =>
    have ih' := ih (fun i hi => ha i (List.mem_cons_of_mem _ hi))
      fun i hi => hb i (List.mem_cons_of_mem _ hi)
    simp only [opItems, List.flatMap_cons, List.map_cons, segment_append,
      List.append_cancel_left_eq, List.cons.injEq]
    cases hide with
    | true =>
      have hstars : tab ∉ bytes "******" := by decide
      rw [append_tab_inj (by simpa using hstars) (by simpa using hstars), ih']
      simp [PrintItem.shown]
    | false =>
      have hx : tab ∉ x := ha ⟨name, false, x⟩ List.mem_cons_self rfl
      have hy : tab ∉ y := hb ⟨name, false, y⟩ List.mem_cons_self rfl
      rw [append_tab_inj (by simpa using hx) (by simpa using hy), ih']
      simp [PrintItem.shown]

theorem SameSerialize.firstGroup_eq {a b : List (ArchiveOp PrintItem)} (h : SameSerialize a b) :
    ∀ groupName, firstGroup groupName a = firstGroup groupName b := by
  induction h with
  | nil => exact fun _ => rfl
  | call name h ih => exact fun groupName => ih (setGroupName groupName name).1
  | item name hide x y h ih => exact fun _ => rfl

/-- **`print_ini` shows what is not hidden, and nothing else**: two data of one `serialize` with a
group name print the same iff the texts of their values agree where they are not hidden. -/
theorem print_ini_eq_iff {a b : List (ArchiveOp PrintItem)} (h : SameSerialize a b)
    (hgroup : firstGroup groupName a ≠ []) (ha : TabFree a) (hb : TabFree b) :
    printIni groupName a = printIni groupName b ↔
      (opItems a).map PrintItem.shown = (opItems b).map PrintItem.shown := by
  rw [printIni_eq hgroup, printIni_eq (h.firstGroup_eq groupName ▸ hgroup),
    h.firstGroup_eq groupName, ← segments_eq_iff h ha hb]
  exact ⟨fun heq => List.append_cancel_left (Except.ok.inj heq), fun heq => by rw [heq]⟩

/-- A login with a hidden password. -/
def loginOps (password : Bytes) : List (ArchiveOp PrintItem) := [
  .call (bytes "nats"),
  .item ⟨bytes "user", false, bytes "bridge"⟩,
  .item ⟨bytes "password", true, password⟩]

theorem print_hides_password : printIni [] (loginOps (bytes "one")) =
    printIni [] (loginOps (bytes "two")) := by
  have hfree : ∀ password, TabFree (loginOps password) := fun password =>
    List.forall_iff_forall_mem.mp ⟨fun _ => by decide, fun h => (by cases h)⟩
  exact (print_ini_eq_iff (.call _ (.item _ _ _ _ (.item _ _ _ _ .nil))) (by decide) (hfree _)
    (hfree _)).mpr rfl

end TradeBridge
