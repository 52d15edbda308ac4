import Sok.Config.ListScope
import Sok.Config.Load
import Sok.Config.Site
import Sok.Process.Restart

/-!
# The settings of a server

A configuration as the program uses it: scalars and sections, and among them the list of the
sites.  It is written with two spaces for each level and with blank lines and comments anywhere.
When the file is loaded, `main` finds the ports in the order of the file, `SiteInfo` finds for
every port the first site that has it, and all other settings are read back.
-/

namespace Sok.Yaml

/-! ## The dedent loop, twice -/

theorem State.dedent_dedent (indent : ℕ) (s : State) :
    (s.dedent indent).dedent indent = s.dedent indent := by
  apply State.dedent_of_le
  rw [State.dedent_eq]
  simp only [State.rounds]
  omega

/-- A line that is not deeper than the root has closed everything before it stores. -/
theorem parseLine_dedent {raw : Bytes} (h : ¬ Ignored (trim raw)) (rest : List Bytes) (s : State) :
    parseLine rest raw (s.dedent (countIndent raw)) = parseLine rest raw s := by
  simp only [parseLine, h, if_false, State.dedent_dedent]

theorem parseLines_render_dedent {tree : Tree} (h : tree ≠ .empty) (more : List Bytes)
    (s : State) :
    parseLines more (tree.render 0) (s.dedent 0) = parseLines more (tree.render 0) s := by
  have hfirst : ∀ (raw : Bytes) (rest : List Bytes), countIndent raw = 0 →
      ¬ Ignored (trim raw) →
      parseLines more (raw :: rest) (s.dedent 0) = parseLines more (raw :: rest) s := by
    intro raw rest hindent hraw
    rw [parseLines, parseLines, ← hindent, parseLine_dedent hraw]
  cases tree with
  | empty => exact absurd rfl h
  | leaf key value rest =>
      refine hfirst _ _ ?_ (not_ignored_pair 0 key value.text)
      exact countIndent_spaces (trimmed_pair key value.text).1
  | node key inner rest =>
      refine hfirst _ _ ?_ (not_ignored_open 0 key)
      exact countIndent_spaces (trimmed_open key).1

end Sok.Yaml

namespace Sok.Server

open Yaml

def rootKey : Key where
  name := ascii "root"

/-! ## Sites -/

/-- A site as it is written: the name behind the hyphen, then the port and the root, then any
further scalars. -/
structure Site where
  name : Bytes
  port : ℕ
  root : Bytes
  more : List (Key × Leaf)
  name_lf : lf ∉ name
  port_lt : port < 2 ^ 31
  root_lf : lf ∉ root

namespace Site

def portLeaf (site : Site) : Leaf := .int site.port site.port_lt

def rootLeaf (site : Site) : Leaf := .str site.root site.root_lf

/-- The lines of the site. -/
def item (site : Site) : Item where
  key := nameKey
  value := .quote site.name site.name_lf
  more := (portKey, site.portLeaf.text) :: (rootKey, site.rootLeaf.text) ::
    site.more.map fun pair => (pair.1, pair.2.text)

/-- What `SiteInfo` keeps of it. -/
def info (site : Site) : SiteInfo := ⟨site.name, site.root⟩

/-- The entry of the `servers` list. -/
def reader (site : Site) : YamlReader := ⟨site.item.entries⟩

theorem converts (site : Site) : site.item.Converts := by
  have hleaf : ∀ leaf : Leaf, Convertible leaf.text := fun leaf => Or.inr ⟨_, leaf.scalar_text⟩
  intro pair hpair
  rcases List.mem_cons.mp hpair with rfl | hpair
  · exact hleaf _
  · rcases List.mem_cons.mp hpair with rfl | hpair
    · exact hleaf _
    · obtain ⟨other, -, rfl⟩ := List.mem_map.mp hpair
      exact hleaf _

theorem storeEntry_leaf (entries : Entries) (key : Key) (leaf : Leaf) :
    storeEntry entries (key, leaf.text) = Entries.emplace key.name leaf.value entries := by
  rw [storeEntry, if_neg leaf.not_inline, leaf.scalar_text]

theorem lookup_storeEntries {key : Bytes} {value : Value} {entries : Entries}
    (h : Entries.lookup key entries = some value) (pairs : List (Key × Leaf)) :
    Entries.lookup key ((pairs.map fun pair => (pair.1, pair.2.text)).foldl storeEntry entries) =
      some value := by
  induction pairs generalizing entries with
  | nil => exact h
  | cons pair pairs ih =>
      rw [List.map_cons, List.foldl_cons, storeEntry_leaf]
      exact ih (Entries.lookup_emplace_of_eq_some h)

/-- The three members, and what follows them. -/
theorem entries_eq (site : Site) :
    site.item.entries =
      (site.more.map fun pair => (pair.1, pair.2.text)).foldl storeEntry
        [(nameKey.name, .str (quoted site.name)), (portKey.name, site.portLeaf.value),
          (rootKey.name, site.rootLeaf.value)] := by
  have hport : Entries.emplace portKey.name site.portLeaf.value
      [(nameKey.name, .str (quoted site.name))] =
        [(nameKey.name, .str (quoted site.name)), (portKey.name, site.portLeaf.value)] :=
    Entries.emplace_of_lookup_eq_none rfl _
  have hroot : Entries.emplace rootKey.name site.rootLeaf.value
      [(nameKey.name, .str (quoted site.name)), (portKey.name, site.portLeaf.value)] =
        [(nameKey.name, .str (quoted site.name)), (portKey.name, site.portLeaf.value),
          (rootKey.name, site.rootLeaf.value)] :=
    Entries.emplace_of_lookup_eq_none rfl _
  rw [Item.entries, item, List.foldl_cons, List.foldl_cons, storeEntry_leaf, storeEntry_leaf]
  exact congrArg (fun front => List.foldl storeEntry front _) ((congrArg _ hport).trans hroot)

theorem getInt_port (site : Site) : site.reader.getInt (ascii "port") = .ok site.port := by
  have hlookup : Entries.lookup portKey.name site.item.entries = some site.portLeaf.value := by
    rw [entries_eq]
    exact lookup_storeEntries rfl _
  exact Leaf.readBack_of_lookup hlookup

theorem getString_name (site : Site) : site.reader.getString (ascii "name") = .ok site.name := by
  have hlookup : Entries.lookup nameKey.name site.item.entries =
      some (Leaf.str site.name site.name_lf).value := by
    rw [entries_eq]
    exact lookup_storeEntries rfl _
  exact Leaf.readBack_of_lookup hlookup

theorem getString_root (site : Site) : site.reader.getString (ascii "root") = .ok site.root := by
  have hlookup : Entries.lookup rootKey.name site.item.entries = some site.rootLeaf.value := by
    rw [entries_eq]
    exact lookup_storeEntries rfl _
  exact Leaf.readBack_of_lookup hlookup

end Site

/-- The ports in the order of the file. -/
theorem portsOf_sites (sites : List Site) :
    portsOf (sites.map Site.reader) = .ok (sites.map fun site => (site.port : Port)) := by
  induction sites with
  | nil => rfl
  | cons site sites ih =>
      rw [List.map_cons, portsOf, site.getInt_port, ih]
      rfl

/-- The first site with the port, or the members of a `SiteInfo` that has found none. -/
def siteAt (port : Port) (sites : List Site) : SiteInfo :=
  ((sites.find? fun site => port = site.port).map Site.info).getD .unset

theorem search_sites (port : Port) (sites : List Site) :
    SiteInfo.search port (sites.map Site.reader) = .ok (siteAt port sites) := by
  induction sites with
  | nil => rfl
  | cons site sites ih =>
      rw [List.map_cons, SiteInfo.search, site.getInt_port, siteAt]
      by_cases hport : port = site.port
      · rw [List.find?_cons_of_pos (by simpa using hport)]
        show (if port = (site.port : ℤ) then _ else _) = _
        rw [if_pos hport, site.getString_name, site.getString_root]
        rfl
      · rw [List.find?_cons_of_neg (by simpa using hport)]
        show (if port = (site.port : ℤ) then _ else _) = _
        rw [if_neg hport]
        exact ih

/-! ## The file -/

/-- The settings of a server: the sites, and what stands before and behind them. -/
structure Settings where
  before : Tree
  sites : List Site
  behind : Tree
  nonempty : sites ≠ []
  before_wellFormed : before.WellFormed
  behind_wellFormed : behind.WellFormed
  distinct : ∀ key ∈ before.keys, key ∉ behind.keys
  before_servers : serversKey.name ∉ before.keys
  behind_servers : serversKey.name ∉ behind.keys

namespace Settings

variable (settings : Settings)

def items : List Item := settings.sites.map Site.item

def render : List Bytes :=
  settings.before.render 0 ++
    (listLines 0 serversKey settings.items ++ settings.behind.render 0)

/-- The stored configuration. -/
def toData : Entries :=
  settings.before.toData ++
    (serversKey.name, .maps (settings.items.map Item.entries)) :: settings.behind.toData

theorem converts : ∀ item ∈ settings.items, item.Converts := by
  intro item hitem
  obtain ⟨site, -, rfl⟩ := List.mem_map.mp hitem
  exact site.converts

theorem items_ne_nil : settings.items ≠ [] := by
  simpa [items] using settings.nonempty

/-- No site stands on one line. -/
theorem oneLine_items : oneLine settings.items = 0 := by
  rw [oneLine, List.countP_eq_zero]
  intro item hitem
  obtain ⟨site, -, rfl⟩ := List.mem_map.mp hitem
  simp [Site.item]

theorem render_lines : ∀ line ∈ settings.render, lf ∉ line ∧ ¬ Ignored (trim line) := by
  intro line hline
  rcases List.mem_append.mp hline with hline | hline
  · exact Yaml.render_lines _ 0 line hline
  · rcases List.mem_append.mp hline with hline | hline
    · refine ⟨?_, not_ignored_listLines 0 serversKey settings.items line hline⟩
      rcases List.mem_cons.mp hline with rfl | hline
      · exact lf_notMem_open 0 serversKey
      · obtain ⟨item, hitem, hline⟩ := List.mem_flatMap.mp hline
        rcases List.mem_cons.mp hline with rfl | hline
        · have hcolon : lf ≠ 58 := by decide
          have hspace : lf ≠ 32 := by decide
          have hhyphen : lf ≠ 45 := by decide
          simp only [itemPairLine, List.mem_append, List.mem_cons, lf_notMem_spaces, item.key.lf,
            item.value.lf, hcolon, hspace, hhyphen, or_self, not_false_eq_true]
        · obtain ⟨pair, -, rfl⟩ := List.mem_map.mp hline
          exact lf_notMem_pair 4 pair.1 pair.2
    · exact Yaml.render_lines _ 0 line hline

/-! ## What the parser stores -/

/-- The root is open, and nothing else. -/
structure AtRoot (s : Yaml.State) (data : Entries) : Prop where
  data : s.data = data
  lists : s.lists = []
  stack : s.stack = [⟨[], true⟩]

theorem parse_before (more : List Bytes) :
    ∃ s, parseLines more (settings.before.render 0) Yaml.start = .ok s ∧
      AtRoot (s.dedent 0) settings.before.toData := by
  have hopened : Yaml.Opened 0 [] [] Yaml.start := ⟨rfl, rfl, le_rfl⟩
  obtain ⟨s, hparse, hdata, hat⟩ :=
    parse_render settings.before_wellFormed (by simp) more (Or.inr hopened)
  have hbuild : settings.before.build [] = settings.before.toData := by
    simpa using Tree.build_eq settings.before_wellFormed [] fun _ _ => Entries.lookup_nil _
  have hstored : s.data = settings.before.toData := hdata.trans hbuild
  refine ⟨s, hparse, ?_⟩
  by_cases hempty : settings.before = .empty
  · rw [hempty] at hparse hstored ⊢
    obtain rfl : Yaml.start = s := Except.ok.inj hparse
    exact ⟨rfl, rfl, rfl⟩
  · obtain ⟨hsame, hlists, hstack⟩ := dedent_of_at (hat (Or.inr hempty))
    exact ⟨hsame.trans hstored, hlists, hstack⟩

/-- The list: behind it the next line finds the root, since no site stands on one line. -/
theorem parse_sites (more : List Bytes) {s : Yaml.State} (hs : Sound s)
    (hroot : AtRoot (s.dedent 0) settings.before.toData) :
    ∃ t, parseLines more (listLines 0 serversKey settings.items) s = .ok t ∧
      t.data = settings.before.toData ++
        [(serversKey.name, .maps (settings.items.map Item.entries))] ∧
      AtRoot (t.dedent 0) t.data := by
  obtain ⟨above, t, hparse, hbehind, -, -, hcount⟩ :=
    parse_list hs hroot.stack serversKey settings.items_ne_nil settings.converts more
  obtain rfl : above = [] := List.eq_nil_of_length_eq_zero (hcount.trans settings.oneLine_items)
  obtain ⟨hdata, hstack, hlists⟩ := Place.dedent_behind_of_le hbehind (Nat.le_refl 0)
  have hnew : Entries.lookup serversKey.name settings.before.toData = none := by
    by_contra hfound
    exact settings.before_servers (Tree.mem_keys_of_lookup hfound)
  refine ⟨t, hparse, ?_, hdata, ?_, ?_⟩
  · have hstored : t.data = Entries.assign serversKey.name (.maps (settings.items.map Item.entries))
        (s.dedent 0).data := by
      rcases hbehind with rfl | ⟨p, rfl⟩ <;> rfl
    rw [hstored, hroot.data, Entries.assign_of_lookup_eq_none hnew]
  · rw [hlists]
    simp [placeOf, Yaml.State.dropLists, Yaml.State.invalidate, hroot.lists]
  · rw [hstack]
    simp [placeOf]

theorem parse_behind {t : Yaml.State} (hroot : AtRoot (t.dedent 0) t.data)
    (hdata : t.data = settings.before.toData ++
      [(serversKey.name, .maps (settings.items.map Item.entries))]) :
    ∃ final, parseLines [] (settings.behind.render 0) t = .ok final ∧
      final.data = settings.toData := by
  have hnew : ∀ key ∈ settings.behind.keys, Entries.lookup key t.data = none := by
    intro key hkey
    have hne : key ≠ serversKey.name := by
      rintro rfl
      exact settings.behind_servers hkey
    rw [hdata, Entries.lookup_concat_of_ne hne]
    by_contra hfound
    exact settings.distinct key (Tree.mem_keys_of_lookup hfound) hkey
  by_cases hempty : settings.behind = .empty
  · refine ⟨t, by rw [hempty]; rfl, ?_⟩
    rw [hdata, toData, hempty]
    rfl
  · have hprevious : (t.dedent 0).previousIndent = 0 := by
      rw [Yaml.State.dedent_eq]
      simp only [Yaml.State.rounds]
      omega
    have hat : At 0 [] [] (t.dedent 0) := ⟨hroot.lists, [], hroot.stack, by simp [hprevious]⟩
    obtain ⟨final, hparse, hfinal, -⟩ :=
      parse_render settings.behind_wellFormed (by simp) [] (Or.inl hat)
    refine ⟨final, (parseLines_render_dedent hempty [] t).symm.trans hparse, ?_⟩
    calc final.data = settings.behind.build (t.dedent 0).data := hfinal
      _ = settings.behind.build t.data := by rw [hroot.data]
      _ = t.data ++ settings.behind.toData :=
          Tree.build_eq settings.behind_wellFormed t.data hnew
      _ = settings.toData := by rw [hdata, List.append_assoc]; rfl

theorem parse_settings {doc : List Bytes} {text : Bytes} (hdoc : Inserted settings.render doc)
    (htext : text = written doc ∨ text ++ [lf] = written doc) :
    parseFile (some text) = .ok ⟨settings.toData⟩ := by
  have hlines := settings.render_lines
  have hlf := lf_notMem_of_inserted hdoc fun line hline => (hlines line hline).1
  obtain ⟨s, hbefore, hroot⟩ := settings.parse_before
    (listLines 0 serversKey settings.items ++ settings.behind.render 0 ++ [])
  obtain ⟨t, hsites, hdata, hbehind⟩ := settings.parse_sites (settings.behind.render 0 ++ [])
    (sound_start.parseLines hbefore) hroot
  obtain ⟨final, hparse, hfinal⟩ := settings.parse_behind hbehind hdata
  have hall : parseLines [] settings.render Yaml.start = .ok final := by
    rw [render, parseLines_append, hbefore]
    show parseLines [] (listLines 0 serversKey settings.items ++ settings.behind.render 0) s = _
    rw [parseLines_append, hsites]
    exact hparse
  rw [parseFile_eq hlf htext,
    significant_of_inserted hdoc fun line hline => (hlines line hline).2, hall, ← hfinal]
  rfl

/-! ## What is read back -/

theorem find_before {key : Bytes} (hkey : key ∈ settings.before.keys) :
    YamlReader.find ⟨settings.toData⟩ key = Entries.lookup key settings.before.toData := by
  have hservers : serversKey.name ≠ key := fun heq => settings.before_servers (heq ▸ hkey)
  have hbehind : Entries.lookup key settings.behind.toData = none := by
    by_contra hfound
    exact settings.distinct key hkey (Tree.mem_keys_of_lookup hfound)
  show Entries.lookup key settings.toData = _
  rw [toData, Entries.lookup_append, Entries.lookup_cons, if_neg hservers, hbehind, Option.or_none]

theorem find_behind {key : Bytes} (hkey : key ∈ settings.behind.keys) :
    YamlReader.find ⟨settings.toData⟩ key = Entries.lookup key settings.behind.toData := by
  have hservers : serversKey.name ≠ key := fun heq => settings.behind_servers (heq ▸ hkey)
  have hbefore : Entries.lookup key settings.before.toData = none := by
    by_contra hfound
    exact settings.distinct key (Tree.mem_keys_of_lookup hfound) hkey
  show Entries.lookup key settings.toData = _
  rw [toData, Entries.lookup_append, Entries.lookup_cons, if_neg hservers, hbefore, Option.none_or]

theorem getArray_servers :
    YamlReader.getArray ⟨settings.toData⟩ (ascii "servers") =
      .ok (settings.sites.map Site.reader) := by
  have hbefore : Entries.lookup serversKey.name settings.before.toData = none := by
    by_contra hfound
    exact settings.before_servers (Tree.mem_keys_of_lookup hfound)
  have hfind : YamlReader.find ⟨settings.toData⟩ (ascii "servers") =
      some (.maps (settings.items.map Item.entries)) := by
    show Entries.lookup serversKey.name settings.toData = _
    rw [toData, Entries.lookup_append, Entries.lookup_cons, if_pos rfl, hbefore, Option.none_or]
  rw [YamlReader.getArray, hfind]
  simp only [items, List.map_map]
  rfl

end Settings

/-- **The settings are read back.**  Whatever was loaded before, when the file is loaded `main`
finds the ports in their order, `SiteInfo` finds for every port the first site that has it and no
site where there is none, and the accessors give back all other settings. -/
theorem settings_read_back (settings : Settings) {doc : List Bytes} {text : Bytes}
    (hdoc : Inserted settings.render doc)
    (htext : text = written doc ∨ text ++ [lf] = written doc) (config : YamlReader) :
    ∃ reader, load config (.contents text) = some (reader, none) ∧
      serverPorts reader = .ok (settings.sites.map fun site => (site.port : Port)) ∧
      (∀ port, SiteInfo.ofPort reader port = .ok (siteAt port settings.sites)) ∧
      settings.before.Recovered reader ∧ settings.behind.Recovered reader := by
  have hparse : ConfigFile.parse (.contents text) = .ok ⟨settings.toData⟩ :=
    settings.parse_settings hdoc htext
  refine ⟨⟨settings.toData⟩, by rw [load, hparse], ?_, fun port => ?_, ?_, ?_⟩
  · rw [serverPorts, settings.getArray_servers]
    exact portsOf_sites settings.sites
  · rw [SiteInfo.ofPort, settings.getArray_servers]
    exact search_sites port settings.sites
  · exact Tree.recovered_of_find settings.before_wellFormed fun _ hkey => settings.find_before hkey
  · exact Tree.recovered_of_find settings.behind_wellFormed fun _ hkey => settings.find_behind hkey

def coresKey : Key where
  name := ascii "cpu_cores"

theorem firstPort_lt : 8080 < 2 ^ 31 := by decide

/-- Two sites on one port, and a setting behind them. -/
def twoSites : Settings where
  before := .leaf coresKey (.int 4 (by decide)) .empty
  sites := [⟨ascii "blog", 8080, ascii "/srv/blog", [], by decide, firstPort_lt, by decide⟩,
    ⟨ascii "shop", 8080, ascii "/srv/shop", [(tlsKey, .bool true)], by decide, firstPort_lt,
      by decide⟩]
  behind := .leaf tlsKey (.bool false) .empty
  nonempty := by simp
  before_wellFormed := ⟨by simp [Tree.keys], trivial⟩
  behind_wellFormed := ⟨by simp [Tree.keys], trivial⟩
  distinct := by decide
  before_servers := by decide
  behind_servers := by decide

theorem settings_read_back_two :
    ∃ reader, load YamlReader.empty (.contents (written twoSites.render)) = some (reader, none) ∧
      serverPorts reader = .ok [8080, 8080] ∧
      SiteInfo.ofPort reader 8080 = .ok ⟨ascii "blog", ascii "/srv/blog"⟩ ∧
      SiteInfo.ofPort reader 80 = .ok SiteInfo.unset := by
  obtain ⟨reader, hload, hports, hsite, -, -⟩ :=
    settings_read_back twoSites (inserted_refl _) (Or.inl rfl) YamlReader.empty
  exact ⟨reader, hload, hports, hsite 8080, hsite 80⟩

end Sok.Server
