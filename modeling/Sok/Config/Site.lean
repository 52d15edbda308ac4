import Sok.Config.Yaml

/-!
# Sites

A site is an entry of the `servers` list.  `SiteInfo.ofPort` is the constructor
of `SiteInfo`: it walks through the entries until one has the port, and throws
what an accessor on the way throws.  When no entry has the port it ends with the
members as they were default-initialised, so with an empty `rootDir`.
-/

namespace Sok

/-- A TCP port as the configuration and the maps hold it (an `int`). -/
abbrev Port := ℤ

/-- The members of `SiteInfo` that the handlers use. -/
structure SiteInfo where
  name : Bytes
  rootDir : Bytes
  deriving DecidableEq

namespace SiteInfo

/-- The members after default initialisation. -/
def unset : SiteInfo := ⟨[], []⟩

/-- The loop over the servers. -/
def search (port : Port) : List YamlReader → Except Bytes SiteInfo
  | [] => .ok unset
  | server :: rest => do
      let serverPort ← server.getInt (ascii "port")
      if port = serverPort then
        let name ← server.getString (ascii "name")
        let rootDir ← server.getString (ascii "root")
        return ⟨name, rootDir⟩
      else search port rest

/-- `SiteInfo::SiteInfo(int p)` on the loaded configuration. -/
def ofPort (root : YamlReader) (port : Port) : Except Bytes SiteInfo := do
  let servers ← root.getArray (ascii "servers")
  search port servers

/-- An entry of the servers list that has the port and a root directory. -/
def IsEntry (server : YamlReader) (port : Port) (rootDir : Bytes) : Prop :=
  server.getInt (ascii "port") = .ok port ∧ server.getString (ascii "root") = .ok rootDir

/-- The search ends at the first entry with the port, or runs off the list. -/
theorem search_cases {port : Port} {servers : List YamlReader} {site : SiteInfo}
    (h : search port servers = .ok site) :
    (∃ server ∈ servers, IsEntry server port site.rootDir) ∨
      (site = unset ∧ ∀ server ∈ servers, server.getInt (ascii "port") ≠ .ok port) := by
  induction servers with
  | nil =>
      obtain rfl := Except.ok.inj h
      exact Or.inr ⟨rfl, by simp⟩
  | cons server rest ih =>
      rw [search] at h
      obtain ⟨serverPort, hport, h⟩ := exists_ok_of_bind h
      by_cases heq : port = serverPort
      · subst heq
        rw [if_pos rfl] at h
        obtain ⟨name, -, h⟩ := exists_ok_of_bind h
        obtain ⟨rootDir, hroot, h⟩ := exists_ok_of_bind h
        obtain rfl := Except.ok.inj h
        exact Or.inl ⟨server, by simp, hport, hroot⟩
      · -- the entry is of another port, so the rest of the list decides
        rw [if_neg heq] at h
        rcases ih h with ⟨entry, hmem, hentry⟩ | ⟨hunset, hnone⟩
        · exact Or.inl ⟨entry, by simp [hmem], hentry⟩
        · refine Or.inr ⟨hunset, ?_⟩
          intro entry hmem
          rcases List.mem_cons.mp hmem with rfl | hmem
          · rw [hport]
            exact fun hok => heq (Except.ok.inj hok).symm
          · exact hnone entry hmem

end SiteInfo

/-- A configuration with one site. -/
def oneServer (port : ℤ) (root : Bytes) : YamlReader :=
  ⟨[(ascii "cpu_cores", .int 1),
    (ascii "servers", .maps [[(ascii "name", .str (ascii "blog")), (ascii "port", .int port),
      (ascii "root", .str root)]])]⟩

end Sok
