import Mathlib.Data.List.Nodup
import TradeBridge.Lib.Bytes
import TradeBridge.Lib.PropertyTree

/-!
# The ini archives

`ptree_ini_oarchive` and `ptree_ini_iarchive` (`src/plugins/trade_bridge/ini.h:115-217`) save the
items of a configuration to a property tree and load them from it, each under the group name the
archive was called with first. `saveIni` and `loadIni` are `ini::save_ini` and `ini::load_ini` between
the reading and the writing of the file; the items are those `serialize` passes on, which is not in
the repository.

The property tree of boost is a parameter, with what its documentation says of `get`, `put` and a
path with a dot (`PTree.Documented`), and so is the translator of each item's type.

Results:
* `saveIni_eq`, `loadAll_eq`: what the archives do with a list of items.
* **`load_of_save`**: loading restores what was saved, and no other entry of the tree changes.
-/

namespace TradeBridge

open TradeBridge.Lib

/-! ## `boost::property_tree` -/

/-- The trees, and the keys of a dotted path. -/
structure PTree (τ : Type) extends Store τ Bytes Bytes where
  path : Bytes → List Bytes

/-- The separator of a path. -/
def dot : UInt8 := 46

/-- A key that a dotted path can have. -/
structure IsKey (key : Bytes) : Prop where
  nonempty : key ≠ []
  no_dot : dot ∉ key

/-- `put` updates a map from paths to data, and the dot separates the keys. -/
structure PTree.Documented {τ : Type} (P : PTree τ) : Prop where
  lawful : P.toStore.Lawful
  path : ∀ key key', IsKey key → IsKey key' → P.path (key ++ dot :: key') = [key, key']

/-- The translator between a type and the data of a node. -/
structure Translator (α : Type) where
  putValue : α → Option Bytes
  getValue : Bytes → Option α

/-- What an archive throws: `ptree_bad_path`, `ptree_bad_data`, and the `runtime_error` of
`check_group_name`. -/
inductive IniError where
  | badPath (path : Bytes)
  | badData
  | groupName
  deriving DecidableEq

variable {τ α : Type}

/-- `tree.get<type>(path)`. -/
def PTree.get (P : PTree τ) (tr : Translator α) (tree : τ) (path : Bytes) : Except IniError α :=
  match P.lookup tree (P.path path) with
  | none => .error (.badPath path)
  | some data =>
    match tr.getValue data with
    | none => .error .badData
    | some value => .ok value

/-- `tree.get<type>(path, default_value)`. -/
def PTree.getOr (P : PTree τ) (tr : Translator α) (tree : τ) (path : Bytes) (defaultValue : α) : α :=
  match P.get tr tree path with
  | .error _ => defaultValue
  | .ok value => value

/-- `tree.put(path, value)`. -/
def PTree.putValue (P : PTree τ) (tr : Translator α) (tree : τ) (path : Bytes) (value : α) :
    Except IniError τ :=
  match tr.putValue value with
  | none => .error .badData
  | some data => .ok (P.put tree (P.path path) data)

/-! ## The archives -/

/-- `config_item`. `link` is what `m_ptr` refers to. -/
structure ConfigItem where
  type : Type
  translator : Translator type
  name : Bytes
  link : type
  defaultValue : Option type

/-- `set(value)`. -/
def ConfigItem.set (item : ConfigItem) (value : item.type) : ConfigItem :=
  { item with link := value }

/-- `set_group_name`: the name behind the call, and whether it was set. -/
def setGroupName (mGroupName groupName : Bytes) : Bytes × Bool :=
  if mGroupName.isEmpty && !groupName.isEmpty then (groupName, true) else (mGroupName, false)

/-- `check_group_name`. -/
def checkGroupName (mGroupName : Bytes) : Except IniError Unit :=
  if mGroupName.isEmpty then .error .groupName else .ok ()

/-- `make_name`. -/
def makeName (mGroupName : Bytes) (item : ConfigItem) : Bytes := mGroupName ++ dot :: item.name

/-- `ptree_ini_oarchive`. -/
structure OArchive (τ : Type) where
  groupName : Bytes
  tree : τ

/-- `ptree_ini_iarchive`. -/
structure IArchive (τ : Type) where
  groupName : Bytes
  hasValues : Bool
  tree : τ

/-- `ar(group_name)`. -/
def OArchive.call (ar : OArchive τ) (groupName : Bytes) : OArchive τ :=
  { ar with groupName := (setGroupName ar.groupName groupName).1 }

/-- `ar(group_name)`. -/
def IArchive.call (ar : IArchive τ) (groupName : Bytes) : IArchive τ :=
  { ar with groupName := (setGroupName ar.groupName groupName).1 }

namespace PTree

/-- `ar & item` of the `ptree_ini_oarchive`. -/
def save (P : PTree τ) (ar : OArchive τ) (item : ConfigItem) : Except IniError (OArchive τ) :=
  match checkGroupName ar.groupName with
  | .error e => .error e
  | .ok () =>
    match P.putValue item.translator ar.tree (makeName ar.groupName item) item.link with
    | .error e => .error e
    | .ok tree => .ok { ar with tree := tree }

/-- The value that is loaded: with a default `get` cannot throw. -/
def value (P : PTree τ) (tree : τ) (name : Bytes) (item : ConfigItem) : Except IniError item.type :=
  match item.defaultValue with
  | some defaultValue => .ok (P.getOr item.translator tree name defaultValue)
  | none => P.get item.translator tree name

/-- `ar & item` of the `ptree_ini_iarchive`. -/
def load (P : PTree τ) (ar : IArchive τ) (item : ConfigItem) :
    Except IniError (IArchive τ × ConfigItem) :=
  match checkGroupName ar.groupName with
  | .error e => .error e
  | .ok () =>
    let name := makeName ar.groupName item
    let hasValues := ar.hasValues || (P.lookup ar.tree (P.path name)).isSome
    match P.value ar.tree name item with
    | .error e => .error e
    | .ok value => .ok ({ ar with hasValues := hasValues }, item.set value)

/-- The items of `serialize`, until one throws. -/
def saveAll (P : PTree τ) : OArchive τ → List ConfigItem → OArchive τ × Option IniError
  | ar, [] => (ar, none)
  | ar, item :: items =>
    match P.save ar item with
    | .error e => (ar, some e)
    | .ok ar' => P.saveAll ar' items

/-- The items of `serialize`, until one throws; those behind it stay as they are. -/
def loadAll (P : PTree τ) : IArchive τ → List ConfigItem →
    List ConfigItem × Except IniError (IArchive τ)
  | ar, [] => ([], .ok ar)
  | ar, item :: items =>
    match P.load ar item with
    | .error e => (item :: items, .error e)
    | .ok (ar', item') => Prod.map (List.cons item') id (P.loadAll ar' items)

/-- `ini::save_ini` on the tree of the file: the tree, and what was thrown. -/
def saveIni (P : PTree τ) (tree : τ) (groupName : Bytes) (items : List ConfigItem) :
    τ × Option IniError :=
  Prod.map OArchive.tree id (P.saveAll ((OArchive.mk [] tree).call groupName) items)

/-- `ini::load_ini` on the tree of the file: the items, and `has_values` unless it throws. -/
def loadIni (P : PTree τ) (tree : τ) (groupName : Bytes) (items : List ConfigItem) :
    List ConfigItem × Except IniError Bool :=
  Prod.map id (Except.map IArchive.hasValues)
    (P.loadAll ((IArchive.mk [] false tree).call groupName) items)

end PTree

/-! ## What a round trip is -/

/-- The data an item is saved as. -/
def ConfigItem.data (item : ConfigItem) : Bytes := (item.translator.putValue item.link).getD []

/-- The translator reads the item's value back from what it writes for it. -/
def ConfigItem.RoundTrips (item : ConfigItem) : Prop :=
  ∃ data, item.translator.putValue item.link = some data ∧
    item.translator.getValue data = some item.link

/-- The paths of the items. -/
def itemPaths (groupName : Bytes) (items : List ConfigItem) : List (List Bytes) :=
  items.map fun item => [groupName, item.name]

/-- The entries at other paths are the same in the second tree, which has no others but, where it is
created, the one of the group, without data. -/
structure LeavesRest (P : PTree τ) (groupName : Bytes) (items : List ConfigItem) (tree tree' : τ) :
    Prop where
  keeps : ∀ path data, path ∉ itemPaths groupName items → P.lookup tree path = some data →
    P.lookup tree' path = some data
  creates : ∀ path data, path ∉ itemPaths groupName items → P.lookup tree path = none →
    P.lookup tree' path = some data → path = [groupName] ∧ data = []

/-- Saving throws nothing and leaves the rest of the tree alone; loading, into whatever the items
refer to by then, throws nothing either, restores them, and has values iff there are items. -/
structure SavesAndLoads (P : PTree τ) (groupName : Bytes) (items : List ConfigItem) (tree : τ) :
    Prop where
  saves : (P.saveIni tree groupName items).2 = none
  rest : LeavesRest P groupName items tree (P.saveIni tree groupName items).1
  loads : ∀ other : (item : ConfigItem) → item.type,
    P.loadIni (P.saveIni tree groupName items).1 groupName
      (items.map fun item => { item with link := other item }) = (items, .ok !items.isEmpty)

/-! ## The archives over a list of items -/

/-- What the items are saved as. -/
def itemEntries (groupName : Bytes) (items : List ConfigItem) : List (List Bytes × Bytes) :=
  items.map fun item => ([groupName, item.name], item.data)

theorem map_fst_itemEntries (groupName : Bytes) (items : List ConfigItem) :
    (itemEntries groupName items).map Prod.fst = itemPaths groupName items := List.map_map

variable {P : PTree τ} {groupName : Bytes}

/-- The first name that an archive is called with sticks. -/
theorem setGroupName_of_isKey (h : IsKey groupName) (other : Bytes) :
    setGroupName [] groupName = (groupName, true) ∧
      setGroupName groupName other = (groupName, false) := by
  have hempty : groupName.isEmpty = false := List.isEmpty_eq_false_iff.mpr h.nonempty
  unfold setGroupName
  rw [hempty]
  exact ⟨rfl, rfl⟩

theorem checkGroupName_of_isKey (h : IsKey groupName) : checkGroupName groupName = .ok () := by
  unfold checkGroupName
  rw [List.isEmpty_eq_false_iff.mpr h.nonempty]
  rfl

theorem path_makeName (hP : P.Documented) (hgroup : IsKey groupName) {item : ConfigItem}
    (hname : IsKey item.name) : P.path (makeName groupName item) = [groupName, item.name] :=
  hP.path _ _ hgroup hname

theorem ConfigItem.RoundTrips.putValue {item : ConfigItem} (h : item.RoundTrips) :
    item.translator.putValue item.link = some item.data := by
  obtain ⟨data, hput, -⟩ := h
  rw [ConfigItem.data, hput, Option.getD_some]

theorem ConfigItem.RoundTrips.getValue {item : ConfigItem} (h : item.RoundTrips) :
    item.translator.getValue item.data = some item.link := by
  obtain ⟨data, hput, hget⟩ := h
  rw [ConfigItem.data, hput, Option.getD_some, hget]

theorem saveAll_eq (hP : P.Documented) (hgroup : IsKey groupName) {items : List ConfigItem}
    (hnames : ∀ item ∈ items, IsKey item.name) (hvalues : ∀ item ∈ items, item.RoundTrips)
    (tree : τ) :
    P.saveAll ⟨groupName, tree⟩ items =
      (⟨groupName, P.putAll tree (itemEntries groupName items)⟩, none) := by
  induction items generalizing tree with
  | nil => rfl
  | cons item items ih =>
    obtain ⟨hname, hnames⟩ := List.forall_mem_cons.mp hnames
    obtain ⟨hvalue, hvalues⟩ := List.forall_mem_cons.mp hvalues
    have hsave : P.save ⟨groupName, tree⟩ item =
        .ok ⟨groupName, P.put tree [groupName, item.name] item.data⟩ := by
      simp only [PTree.save, PTree.putValue, checkGroupName_of_isKey hgroup, hvalue.putValue,
        path_makeName hP hgroup hname]
    rw [PTree.saveAll, hsave]
    exact ih hnames hvalues _

/-- A value that can be read is loaded, with a default or without one. -/
theorem value_of_get {tree : τ} {name : Bytes} {item : ConfigItem} {v : item.type}
    (h : P.get item.translator tree name = .ok v) : P.value tree name item = .ok v := by
  unfold PTree.value
  cases item.defaultValue with
  | none => exact h
  | some d =>
    simp only
    rw [PTree.getOr, h]

/-- **An item is restored** from the data it was saved as, whatever it refers to, and not from its
default. -/
theorem load_eq (hP : P.Documented) (hgroup : IsKey groupName) {item : ConfigItem}
    (hname : IsKey item.name) (hvalue : item.RoundTrips) {tree : τ}
    (hdata : P.lookup tree [groupName, item.name] = some item.data) (hasValues : Bool)
    (other : item.type) :
    P.load ⟨groupName, hasValues, tree⟩ { item with link := other } =
      .ok (⟨groupName, true, tree⟩, item) := by
  have hpath : P.path (makeName groupName { item with link := other }) = [groupName, item.name] :=
    path_makeName hP hgroup hname
  have hget : P.get item.translator tree (makeName groupName { item with link := other }) =
      .ok item.link := by
    unfold PTree.get
    rw [hpath, hdata]
    simp only
    rw [hvalue.getValue]
  have hread : P.value tree (makeName groupName { item with link := other })
      { item with link := other } = .ok item.link := value_of_get hget
  unfold PTree.load
  simp only
  rw [checkGroupName_of_isKey hgroup, hpath, hdata, hread, Option.isSome_some, Bool.or_true]
  rfl

theorem loadAll_eq (hP : P.Documented) (hgroup : IsKey groupName) {tree : τ}
    (other : (item : ConfigItem) → item.type) {items : List ConfigItem}
    (hnames : ∀ item ∈ items, IsKey item.name) (hvalues : ∀ item ∈ items, item.RoundTrips)
    (hdata : ∀ item ∈ items, P.lookup tree [groupName, item.name] = some item.data)
    (hasValues : Bool) :
    P.loadAll ⟨groupName, hasValues, tree⟩
        (items.map fun item => { item with link := other item }) =
      (items, .ok ⟨groupName, hasValues || !items.isEmpty, tree⟩) := by
  induction items generalizing hasValues with
  | nil => simp [PTree.loadAll]
  | cons item items ih =>
    obtain ⟨hname, hnames⟩ := List.forall_mem_cons.mp hnames
    obtain ⟨hvalue, hvalues⟩ := List.forall_mem_cons.mp hvalues
    obtain ⟨hitem, hdata⟩ := List.forall_mem_cons.mp hdata
    rw [List.map_cons, PTree.loadAll, load_eq hP hgroup hname hvalue hitem]
    simp only
    rw [ih hnames hvalues hdata true]
    simp

/-! ## The round trip -/

/-- On the way to an item there are the root, which every tree has, and the group. -/
theorem eq_group_of_way (hP : P.Documented) {tree : τ} {path : List Bytes} {name : Bytes}
    (hpre : path <+: [groupName, name]) (hnone : P.lookup tree path = none)
    (hne : path ≠ [groupName, name]) : path = [groupName] := by
  match path, hpre with
  | [], _ =>
    obtain ⟨d, hroot⟩ := hP.lawful.root tree
    cases hnone.symm.trans hroot
  | [key], hpre =>
    obtain ⟨rfl, -⟩ := List.cons_prefix_cons.mp hpre
    rfl
  | key :: key' :: path, hpre =>
    have hlen := hpre.length_le
    refine absurd (hpre.eq_of_length ?_) hne
    simp only [List.length_cons, List.length_nil] at hlen ⊢
    omega

/-- **Saving is one `put` for each item**, and throws nothing. -/
theorem saveIni_eq (hP : P.Documented) (hgroup : IsKey groupName) {items : List ConfigItem}
    (hnames : ∀ item ∈ items, IsKey item.name) (hvalues : ∀ item ∈ items, item.RoundTrips)
    (tree : τ) :
    P.saveIni tree groupName items = (P.putAll tree (itemEntries groupName items), none) := by
  unfold PTree.saveIni OArchive.call
  simp only
  rw [(setGroupName_of_isKey hgroup []).1, saveAll_eq hP hgroup hnames hvalues]
  rfl

/-- The writes of the items leave the rest of the tree alone. -/
theorem leavesRest_putAll (hP : P.Documented) (groupName : Bytes) (items : List ConfigItem)
    (tree : τ) :
    LeavesRest P groupName items tree (P.putAll tree (itemEntries groupName items)) := by
  refine ⟨fun path data hne hdata => ?_, fun path data hne hnone hdata => ?_⟩
  · rw [← map_fst_itemEntries] at hne
    exact Store.lookup_putAll_of_notMem hP.lawful hne hdata
  · have hne' := hne
    rw [← map_fst_itemEntries] at hne'
    obtain ⟨⟨path', hmem, hpre⟩, hempty⟩ := Store.putAll_creates hP.lawful hne' hnone hdata
    rw [map_fst_itemEntries] at hmem
    obtain ⟨item, hitem, rfl⟩ := List.mem_map.mp hmem
    exact ⟨eq_group_of_way hP hpre hnone fun heq => hne (heq ▸ hmem), hempty⟩

/-- Items of different names have different paths, so each is found as it was saved. -/
theorem lookup_item (hP : P.Documented) {items : List ConfigItem}
    (hnodup : (items.map ConfigItem.name).Nodup) (tree : τ) : ∀ item ∈ items,
      P.lookup (P.putAll tree (itemEntries groupName items)) [groupName, item.name] =
        some item.data := by
  intro item hitem
  have hinj : (fun name : Bytes => [groupName, name]).Injective :=
    fun a b h => (List.cons.inj (List.cons.inj h).2).1
  have hpaths : ((itemEntries groupName items).map Prod.fst).Nodup := by
    have hmap := List.Nodup.map hinj hnodup
    rw [List.map_map] at hmap
    rwa [map_fst_itemEntries]
  exact Store.lookup_putAll_of_mem hP.lawful hpaths (List.mem_map.mpr ⟨item, hitem, rfl⟩)

/-- **Loading restores what was saved, and leaves the rest alone**: for every tree, and items of
different names. -/
theorem load_of_save (hP : P.Documented) (hgroup : IsKey groupName) {items : List ConfigItem}
    (hnodup : (items.map ConfigItem.name).Nodup) (hnames : ∀ item ∈ items, IsKey item.name)
    (hvalues : ∀ item ∈ items, item.RoundTrips) (tree : τ) :
    SavesAndLoads P groupName items tree := by
  have hsave := saveIni_eq hP hgroup hnames hvalues tree
  refine ⟨by rw [hsave], hsave ▸ leavesRest_putAll hP groupName items tree, fun other => ?_⟩
  unfold PTree.loadIni IArchive.call
  simp only
  rw [hsave, (setGroupName_of_isKey hgroup []).1,
    loadAll_eq hP hgroup other hnames hvalues (lookup_item hP hnodup tree), Bool.false_or]
  rfl

/-! ## An example -/

/-- The property trees, with a path split at its dots. -/
def ptree : PTree (Tree Bytes Bytes) where
  toStore := Tree.store Bytes Bytes
  path := List.splitOn dot

theorem ptree_documented : ptree.Documented where
  lawful := Tree.lawful
  path := fun key key' hkey hkey' => by
    show (key ++ dot :: key').splitOn dot = [key, key']
    rw [List.splitOn_append_cons_self_of_not_mem hkey.no_dot, List.splitOn_eq_singleton hkey'.no_dot]

/-- A text is written as it is. -/
def textTranslator : Translator Bytes := ⟨some, some⟩

/-- A flag is written as a digit. -/
def flagTranslator : Translator Bool where
  putValue
    | true => some (bytes "1")
    | false => some (bytes "0")
  getValue data :=
    if data = bytes "1" then some true else if data = bytes "0" then some false else none

/-- Two items, one with a default. -/
def twoItems : List ConfigItem := [
  ⟨Bytes, textTranslator, bytes "server_name", bytes "srv", none⟩,
  ⟨Bool, flagTranslator, bytes "enabled", false, some true⟩]

/-- A tree with another section. -/
def otherSection : Tree Bytes Bytes :=
  .node [] [(bytes "log", .node [] [(bytes "level", .node (bytes "info") [])])]

theorem load_of_save_twoItems : SavesAndLoads ptree (bytes "bridge") twoItems otherSection := by
  refine load_of_save ptree_documented ⟨by decide, by decide⟩ (by decide) ?_ ?_ _
  · exact List.forall_iff_forall_mem.mp
      ⟨⟨by decide, by decide⟩, ⟨by decide, by decide⟩⟩
  · exact List.forall_iff_forall_mem.mp ⟨⟨_, rfl, rfl⟩, ⟨_, rfl, rfl⟩⟩

end TradeBridge
