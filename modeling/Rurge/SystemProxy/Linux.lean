import Rurge.SystemProxy.GivesBack

/-!
# Linux: GNOME through `gsettings`, KDE through `kwriteconfig`

The commands of `sysproxy/linux.rs` and the machine they work on: the texts `gsettings` and
`kreadconfig` print, with the desktop and the KDE tools that this process detected, which another
start may detect differently.  What a text has around it in white space is not told, and
`--delete` is the word that removes a KDE key (`back`).
-/

namespace Rurge.SystemProxy.Linux

inductive Desktop
  | gnome
  | kde
  | other
  deriving DecidableEq

def GNOME_ROOT : Str := "org.gnome.system.proxy".toList

/-- The schema of one proxy kind. -/
def schema_of (kind : Str) : Str := GNOME_ROOT ++ '.' :: kind

/-- (schema, key) pairs that are touched, in snapshot order. -/
def GNOME_KEYS : List (Str × Str) :=
  [(GNOME_ROOT, "mode".toList), (GNOME_ROOT, "ignore-hosts".toList),
    (schema_of "http".toList, "host".toList), (schema_of "http".toList, "port".toList),
    (schema_of "https".toList, "host".toList), (schema_of "https".toList, "port".toList),
    (schema_of "socks".toList, "host".toList), (schema_of "socks".toList, "port".toList)]

def KDE_KEYS : List Str :=
  ["ProxyType".toList, "httpProxy".toList, "httpsProxy".toList, "socksProxy".toList,
    "NoProxyFor".toList]

/-- The commands that change something. -/
inductive Cmd
  | gset (schema key value : Str)
  | kwrite (tool key arg : Str)

/-- What the tools are run for; `detected` is what this process found when it started. -/
inductive Tool
  | detected
  | gget (schema key : Str)
  | kread (tool key : Str)
  | set (c : Cmd)
  | reparse

@[reducible] def Ans : Tool → Type
  | .detected => Desktop × Option (Str × Str)
  | .gget _ _ | .kread _ _ => Except Str Str
  | .set _ | .reparse => Except Str Unit

def exec (c : Cmd) : Prog Tool Ans (Except Str Unit) := Prog.call (Tool.set c)

/-! ### The commands -/

/-- A GVariant string literal. -/
def gv_str (s : Str) : Str :=
  '\'' :: s.flatMap (fun c => if c = '\\' ∨ c = '\'' then ['\\', c] else [c]) ++ ['\'']

/-- A GVariant string array; the empty one needs its type spelled out. -/
def gv_strv (items : List Str) : Str :=
  if items = [] then "@as []".toList
  else '[' :: ", ".toList.intercalate (items.map gv_str) ++ [']']

/-- The host and the port of one proxy kind. -/
def gnome_kind (kind : Str) (addr : Option SocketAddr) : List Cmd :=
  [.gset (schema_of kind) "host".toList (gv_str ((addr.map (·.ip.toText)).getD [])),
    .gset (schema_of kind) "port".toList (Str.decimal ((addr.map (·.port)).getD 0))]

def gnome_apply_commands (settings : ProxySettings) : List Cmd :=
  gnome_kind "http".toList settings.http ++ gnome_kind "https".toList settings.https ++
    gnome_kind "socks".toList settings.socks ++
    [.gset GNOME_ROOT "ignore-hosts".toList (gv_strv settings.bypass),
      -- switched to manual last, once the addresses are in place
      .gset GNOME_ROOT "mode".toList "'manual'".toList]

/-- The word that removes a key. -/
def delete : Str := "--delete".toList

def kwrite (tool key : Str) (value : Option Str) : Cmd := .kwrite tool key (value.getD delete)

/-- `kioslaverc` keeps a proxy as `<scheme>://<host> <port>`. -/
def kde_url (scheme : Str) (addr : SocketAddr) : Str :=
  let host := match addr.ip with
    | .v4 _ => addr.ip.toText
    | .v6 _ => '[' :: addr.ip.toText ++ [']']
  scheme ++ "://".toList ++ host ++ ' ' :: Str.decimal addr.port

def kde_apply_commands (write_tool : Str) (settings : ProxySettings) : List Cmd :=
  let bypass := if settings.bypass = [] then none else some ([','].intercalate settings.bypass)
  [kwrite write_tool "httpProxy".toList (settings.http.map (kde_url "http".toList)),
    kwrite write_tool "httpsProxy".toList (settings.https.map (kde_url "http".toList)),
    kwrite write_tool "socksProxy".toList (settings.socks.map (kde_url "socks".toList)),
    kwrite write_tool "NoProxyFor".toList bypass,
    kwrite write_tool "ProxyType".toList (some ['1'])]

/-- `SocketAddr`'s `Display`. -/
def addr_text (addr : SocketAddr) : Str :=
  match addr.ip with
  | .v4 _ => addr.ip.toText ++ ':' :: Str.decimal addr.port
  | .v6 _ => '[' :: addr.ip.toText ++ ']' :: ':' :: Str.decimal addr.port

/-- What a shell user can export when no desktop setting exists. -/
def env_hint (settings : ProxySettings) : Str :=
  let http := settings.http.toList.map fun a => "http_proxy=http://".toList ++ addr_text a
  let https := settings.https.toList.map fun a => "https_proxy=http://".toList ++ addr_text a
  let bypass := if settings.bypass = [] then []
    else ["no_proxy=".toList ++ [','].intercalate settings.bypass]
  "export ".toList ++ [' '].intercalate (http ++ https ++ bypass)

/-! ### The backend -/

/-- `LinuxBackup`. -/
structure Backup where
  desktop : Desktop
  values : BTreeMap Str
  /-- The `kwriteconfig` the snapshot was taken with. -/
  kde_write : Option Str

/-- The name a GNOME setting is saved under. -/
def gnome_name (schema key : Str) : Str := schema ++ ' ' :: key

def gget (schema key : Str) : Prog Tool Ans (Except Str Str) := Prog.call (Tool.gget schema key)

def kread (tool key : Str) : Prog Tool Ans (Except Str Str) := Prog.call (Tool.kread tool key)

def detected : Prog Tool Ans (Desktop × Option (Str × Str)) := Prog.call Tool.detected

/-- One key after another is read, and its text saved under its name. -/
def snapshot_keys {κ : Type} (read : κ → Prog Tool Ans (Except Str Str)) (name : κ → Str)
    (values : BTreeMap Str) : List κ → Prog Tool Ans (Except Str (BTreeMap Str))
  | [] => .done (.ok values)
  | key :: rest => (read key).andThen fun out =>
    snapshot_keys read name (values.insert (name key) out.trim) rest

def snapshot_gnome : Prog Tool Ans (Except Str (BTreeMap Str)) :=
  snapshot_keys (fun k => gget k.1 k.2) (fun k => gnome_name k.1 k.2) [] GNOME_KEYS

def snapshot_kde (read : Str) : Prog Tool Ans (Except Str (BTreeMap Str)) :=
  snapshot_keys (kread read) id [] KDE_KEYS

def no_kde_tools : Str := "kwriteconfig6 / kwriteconfig5 not found".toList

def snapshot : Prog Tool Ans (Except Str Backup) :=
  detected >>= fun found =>
    match found.1 with
    | .gnome =>
      snapshot_gnome.andThen fun values =>
        .done (.ok { desktop := .gnome, values, kde_write := none })
    | .kde =>
      match found.2 with
      | none => .done (.error no_kde_tools)
      | some (write, read) =>
        (snapshot_kde read).andThen fun values =>
          .done (.ok { desktop := .kde, values, kde_write := some write })
    | .other => .done (.ok { desktop := .other, values := [], kde_write := none })

/-- Asks running KIO clients to re-read `kioslaverc`; a failure is only logged. -/
def notify_kio : Prog Tool Ans Unit := do
  let _ ← Prog.call Tool.reparse
  return ()

def apply (settings : ProxySettings) : Prog Tool Ans (Except Str Unit) :=
  detected >>= fun found =>
    match found.1 with
    | .gnome => run_all exec (gnome_apply_commands settings)
    | .kde =>
      match found.2 with
      | none => .done (.error no_kde_tools)
      | some (write, _) =>
        (run_all exec (kde_apply_commands write settings)).andThen fun _ =>
          notify_kio >>= fun _ => .done (.ok ())
    | .other =>
      .done (.error ("no supported desktop proxy settings (GNOME or KDE) were found; ".toList ++
        "set the proxy in your shell instead:\n  ".toList ++ env_hint settings))

/-- Everything but the mode first, the mode last. -/
def ordered : List (Str × Str) :=
  GNOME_KEYS.filter (fun k => k.2 ≠ "mode".toList) ++
    GNOME_KEYS.filter (fun k => k.2 = "mode".toList)

def gnome_restore_commands (saved : Backup) : List Cmd :=
  ordered.filterMap fun k => (saved.values.lookup (gnome_name k.1 k.2)).bind fun value =>
    if value = [] then none else some (.gset k.1 k.2 value)

def kde_restore_commands (write : Str) (saved : Backup) : List Cmd :=
  KDE_KEYS.filterMap fun key => (saved.values.lookup key).map fun value =>
    kwrite write key (if value = [] then none else some value)

/-- Follows the desktop recorded in the backup, not the current session. -/
def restore (saved : Backup) : Prog Tool Ans (Except Str Unit) :=
  match saved.desktop with
  | .gnome => run_best_effort exec (gnome_restore_commands saved)
  | .kde => do
    -- whatever is detected here wins, then the name the snapshot recorded, then Plasma 6's
    let (_, kde) ← detected
    let write := ((kde.map (·.1)).or saved.kde_write).getD "kwriteconfig6".toList
    let result ← run_best_effort exec (kde_restore_commands write saved)
    notify_kio
    return result
  | .other => .done (.ok ())

/-! ### The machine -/

/-- What the tools print of each setting, and what this process detected. -/
structure Desk where
  gnome : Str → Str → Str
  kde : Str → Str
  desktop : Desktop
  tools : Option (Str × Str)

inductive Setting
  | gnome (schema key : Str)
  | kde (key : Str)
  deriving DecidableEq

def value (w : Desk) : Setting → Str
  | .gnome schema key => w.gnome schema key
  | .kde key => w.kde key

/-- What a KDE text is when it has been written back. -/
def kde_text (s : Str) : Str := if s.trim = delete then [] else s.trim

/-- A setting is back when its text is as it was, but for white space around it; a GNOME key that
printed nothing is not written back. -/
def back : Setting → Str → Str → Prop
  | .gnome _ _, p, q => q.trim = p.trim ∨ p.trim = []
  | .kde _, p, q => kde_text q = kde_text p

def holds (b : Backup) : Setting → Str → Prop
  | .gnome schema key, v => b.desktop = .gnome ∧ (schema, key) ∈ GNOME_KEYS ∧
      b.values.lookup (gnome_name schema key) = some v
  | .kde key, v => b.desktop = .kde ∧ key ∈ KDE_KEYS ∧ b.values.lookup key = some v

def Cmd.target : Cmd → Setting
  | .gset schema key _ => .gnome schema key
  | .kwrite _ key _ => .kde key

/-- What the tools print of a setting once it is set. -/
def Cmd.effect : Cmd → Str → Str → Prop
  | .gset _ _ v, _, u => u.trim = v.trim
  | .kwrite _ _ arg, _, u => u.trim = if arg = delete then [] else arg.trim

def run : (t : Tool) → Desk → Ans t → Desk → Prop
  | .detected, w, x, u => u = w ∧ x = (w.desktop, w.tools)
  | .gget schema key, w, x, u => u = w ∧ ∀ v, x = .ok v → v.trim = (w.gnome schema key).trim
  | .kread _ key, w, x, u => u = w ∧ ∀ v, x = .ok v → v.trim = (w.kde key).trim
  | .set c, w, x, u => Undo.Touches value Cmd.target c w u ∧ u.desktop = w.desktop ∧
      u.tools = w.tools ∧ (x = .ok () → c.effect (value w c.target) (value u c.target))
  | .reparse, w, _, u => u = w

def succeeds : (t : Tool) → Ans t → Prop
  | .detected, _ => True
  | .gget _ _, x => ∃ v, x = .ok v
  | .kread _ _, x => ∃ v, x = .ok v
  | .set _, x => ∃ v, x = .ok v
  | .reparse, x => ∃ v, x = .ok v

def sets : Tool → Option Setting
  | .set c => some c.target
  | _ => none

def machine : Machine where
  Tool := Tool
  Ans := Ans
  Backup := Backup
  snapshot := snapshot
  apply := apply
  restore := restore
  World := Desk
  Setting := Setting
  Value := Str
  value := value
  back := back
  holds := holds
  run := run
  succeeds := succeeds
  sets := sets
  reboot w u := u.gnome = w.gnome ∧ u.kde = w.kde

/-! ### Reading -/

variable {w₀ w u : Desk} {b : Backup}

/-- A snapshot has the text of every key, without the white space around it. -/
theorem snapshot_keys_holds {κ : Type} {read : κ → Prog Tool Ans (Except Str Str)}
    {name : κ → Str} {text : κ → Str} {all keys : List κ} {values : BTreeMap Str}
    (hread : ∀ k, (read k).Holds run (fun w u => u = w)
      (fun r u => u = w ∧ ∀ v, r = .ok v → v.trim = (text k).trim) w)
    (hname : ∀ k ∈ all, ∀ k' ∈ all, name k = name k' → k = k') (hkeys : ∀ k ∈ keys, k ∈ all)
    (hvalues : ∀ k ∈ all, k ∈ keys ∨ values.lookup (name k) = some (text k).trim) :
    (snapshot_keys read name values keys).Holds run (fun w u => u = w)
      (fun r _ => ∀ m, r = .ok m → ∀ k ∈ all, m.lookup (name k) = some (text k).trim) w := by
  induction keys generalizing values with
  | nil =>
    intro m hm k hk
    cases hm
    exact (hvalues k hk).resolve_left List.not_mem_nil
  | cons key rest ih =>
    refine (hread key).andThen ?_ fun e t _ m hm => by cases hm
    rintro out _ ⟨rfl, hout⟩
    refine ih (fun k hk => hkeys k (.tail key hk)) fun k hk => ?_
    rw [BTreeMap.lookup_insert]
    by_cases hk' : k = key
    · right
      rw [if_pos (by rw [hk']), hk', hout out rfl]
    · rw [if_neg fun h => hk' (hname k hk key (hkeys key (.head rest)) h)]
      exact (hvalues k hk).imp_left fun h => (List.mem_cons.1 h).resolve_left hk'

theorem gnome_name_inj : ∀ k ∈ GNOME_KEYS, ∀ k' ∈ GNOME_KEYS,
    gnome_name k.1 k.2 = gnome_name k'.1 k'.2 → k = k' := by
  decide +kernel

/-- **A snapshot holds every setting of its desktop**, at its text. -/
theorem snapshot_holds : machine.snapshot.Holds run (fun w u => u = w)
    (fun r _ => ∀ b, r = .ok b → b.desktop = w.desktop ∧
      (b.desktop = .gnome → ∀ k ∈ GNOME_KEYS,
        b.values.lookup (gnome_name k.1 k.2) = some (w.gnome k.1 k.2).trim) ∧
      (b.desktop = .kde → ∀ k ∈ KDE_KEYS, b.values.lookup k = some (w.kde k).trim)) w := by
  rintro _ t ⟨rfl, rfl⟩
  refine ⟨rfl, ?_⟩
  cases hd : t.desktop with
  | gnome =>
    have hkeys : snapshot_gnome.Holds run (fun w u => u = w) (fun r _ => ∀ m, r = .ok m →
        ∀ k ∈ GNOME_KEYS, m.lookup (gnome_name k.1 k.2) = some (t.gnome k.1 k.2).trim) t :=
      snapshot_keys_holds (fun k x u hx => ⟨hx.1, hx⟩) gnome_name_inj (fun _ h => h)
        fun _ h => .inl h
    refine hkeys.andThen ?_ fun e _ _ b hb => by cases hb
    rintro m _ hm b hb
    cases hb
    exact ⟨rfl, fun _ => hm m rfl, fun h => by cases h⟩
  | kde =>
    cases ht : t.tools with
    | none => exact fun b hb => by cases hb
    | some tools =>
      have hkeys : (snapshot_kde tools.2).Holds run (fun w u => u = w) (fun r _ => ∀ m, r = .ok m →
          ∀ k ∈ KDE_KEYS, m.lookup (id k) = some (t.kde k).trim) t :=
        snapshot_keys_holds (fun k x u hx => ⟨hx.1, hx⟩) (fun _ _ _ _ h => h)
          (fun _ h => h) fun _ h => .inl h
      refine hkeys.andThen ?_ fun e _ _ b hb => by cases hb
      rintro m _ hm b hb
      cases hb
      exact ⟨rfl, fun h => (by cases h), fun _ => hm m rfl⟩
  | other =>
    intro b hb
    cases hb
    exact ⟨rfl, fun h => (by cases h), fun h => (by cases h)⟩

/-! ### Restoring -/

/-- A command that did what it is for. -/
abbrev Did := Undo.Did value Cmd.target Cmd.effect

theorem kde_text_congr {s t : Str} (h : s.trim = t.trim) : kde_text s = kde_text t := by
  unfold kde_text
  rw [h]

theorem kde_text_trim (s : Str) : kde_text s.trim = kde_text s := kde_text_congr s.trim_trim

theorem mem_ordered {k : Str × Str} : k ∈ ordered ↔ k ∈ GNOME_KEYS := by
  simp only [ordered, List.mem_append, List.mem_filter, decide_eq_true_eq]
  tauto

/-- The targets of commands made of some of the keys are different. -/
theorem targets_nodup {κ : Type} {keys : List κ} {f : κ → Option Cmd} {g : κ → Setting}
    (hf : ∀ k c, f k = some c → c.target = g k) (hkeys : (keys.map g).Nodup) :
    ((keys.filterMap f).map Cmd.target).Nodup := by
  refine List.Nodup.sublist ?_ hkeys
  induction keys with
  | nil => exact .slnil
  | cons k keys ih =>
    have ih := ih (List.nodup_cons.1 hkeys).2
    cases hk : f k with
    | none => rw [List.filterMap_cons_none hk]; exact ih.cons _
    | some c =>
      rw [List.filterMap_cons_some hk, List.map_cons, List.map_cons, hf k c hk]
      exact ih.cons_cons _

theorem gnome_restore_target {k : Str × Str} {c : Cmd}
    (h : ((b.values.lookup (gnome_name k.1 k.2)).bind fun value =>
      if value = [] then none else some (Cmd.gset k.1 k.2 value)) = some c) :
    c.target = .gnome k.1 k.2 := by
  obtain ⟨v, -, hv⟩ := Option.bind_eq_some_iff.1 h
  split_ifs at hv
  cases hv
  rfl

theorem kde_restore_target {write key : Str} {c : Cmd}
    (h : ((b.values.lookup key).map fun value =>
      kwrite write key (if value = [] then none else some value)) = some c) :
    c.target = .kde key := by
  obtain ⟨v, -, rfl⟩ := Option.map_eq_some_iff.1 h
  rfl

/-- **Every GNOME key put back, every one is back.** -/
theorem gnome_restore_did (hb : b.desktop = .gnome)
    (h : Chain Did (gnome_restore_commands b) w u) (hf : machine.Faithful w₀ b)
    (hw : machine.Within w₀ b w) : machine.Given w₀ u := by
  have hnodup : ((gnome_restore_commands b).map Cmd.target).Nodup :=
    targets_nodup (g := fun k => .gnome k.1 k.2) (fun k c => gnome_restore_target)
      (by decide +kernel)
  intro k
  by_cases hk : ∃ v, holds b k v
  · obtain ⟨v, hv⟩ := hk
    have hback : back k (value w₀ k) v := hf k v hv
    cases k with
    | kde key => exact absurd (hb.symm.trans hv.1) (by decide)
    | gnome schema key =>
      obtain ⟨-, hkeys, hlookup⟩ := hv
      by_cases hempty : v = []
      · subst hempty
        rcases hback with hback | hback
        · exact .inr hback.symm
        · exact .inr hback
      · have hmem : Cmd.gset schema key v ∈ gnome_restore_commands b :=
          List.mem_filterMap.2 ⟨(schema, key), mem_ordered.2 hkeys, by simp [hlookup, hempty]⟩
        obtain ⟨_, he⟩ := Undo.chain_did hnodup h hmem
        replace he : (u.gnome schema key).trim = v.trim := he
        exact hback.imp_left fun h => he.trans h
  · have hne : ∀ c ∈ gnome_restore_commands b, c.target ≠ k := by
      rintro c hc rfl
      obtain ⟨k, hk', hc⟩ := List.mem_filterMap.1 hc
      obtain ⟨v, hv, -⟩ := Option.bind_eq_some_iff.1 hc
      exact hk ⟨v, by rw [gnome_restore_target hc]; exact ⟨hb, mem_ordered.1 hk', hv⟩⟩
    have hsame : value u k = value w k := Undo.unchanged h hne
    change back k (value w₀ k) (value u k)
    rw [hsame]
    exact hw k fun v hv => hk ⟨v, hv⟩

/-- **Every KDE key put back, every one is back.** -/
theorem kde_restore_did {write : Str} (hb : b.desktop = .kde)
    (h : Chain Did (kde_restore_commands write b) w u) (hf : machine.Faithful w₀ b)
    (hw : machine.Within w₀ b w) : machine.Given w₀ u := by
  have hnodup : ((kde_restore_commands write b).map Cmd.target).Nodup :=
    targets_nodup (g := Setting.kde) (fun k c => kde_restore_target) (by decide +kernel)
  intro k
  by_cases hk : ∃ v, holds b k v
  · obtain ⟨v, hv⟩ := hk
    have hback : back k (value w₀ k) v := hf k v hv
    cases k with
    | gnome schema key => exact absurd (hb.symm.trans hv.1) (by decide)
    | kde key =>
      obtain ⟨-, hkeys, hlookup⟩ := hv
      have hmem : kwrite write key (if v = [] then none else some v) ∈
          kde_restore_commands write b :=
        List.mem_filterMap.2 ⟨key, hkeys, by simp [hlookup]⟩
      obtain ⟨_, he⟩ := Undo.chain_did hnodup h hmem
      have htext : kde_text (u.kde key) = kde_text v := by
        replace he : (u.kde key).trim = if (if v = [] then none else some v).getD delete = delete
          then [] else ((if v = [] then none else some v).getD delete).trim := he
        unfold kde_text
        rw [he]
        by_cases hempty : v = []
        · subst hempty
          decide +kernel
        · by_cases hdelete : v = delete
          · subst hdelete
            decide +kernel
          · simp [hempty, hdelete]
      exact htext.trans hback
  · have hne : ∀ c ∈ kde_restore_commands write b, c.target ≠ k := by
      rintro c hc rfl
      obtain ⟨key, hk', hc⟩ := List.mem_filterMap.1 hc
      obtain ⟨v, hv, -⟩ := Option.map_eq_some_iff.1 hc
      exact hk ⟨v, by rw [kde_restore_target hc]; exact ⟨hb, hk', hv⟩⟩
    have hsame : value u k = value w k := Undo.unchanged h hne
    change back k (value w₀ k) (value u k)
    rw [hsame]
    exact hw k fun v hv => hk ⟨v, hv⟩

theorem restore_holds : (restore b).Holds run
    (fun w u => ∀ k, (∀ v, ¬ holds b k v) → value u k = value w k)
    (fun r u => r = .ok () → ∀ w₀, machine.Faithful w₀ b → machine.Within w₀ b w →
      machine.Given w₀ u) w := by
  have hexec : ∀ {cs : List Cmd}, (∀ c ∈ cs, ∃ v, holds b c.target v) → ∀ c ∈ cs, ∀ w, True →
      (exec c).Holds run (fun w u => ∀ k, (∀ v, ¬ holds b k v) → value u k = value w k)
        (fun r u => True ∧ (r = .ok () → Did c w u)) w := by
    rintro cs hcs c hc w - x u ⟨htouch, -, -, heff⟩
    refine ⟨fun k hk => htouch k fun he => ?_, trivial, fun hx => ⟨htouch, heff hx⟩⟩
    obtain ⟨v, hv⟩ := hcs c hc
    exact hk v (he ▸ hv)
  have hnotify : ∀ {α : Type} {p : Prog Tool Ans α} {Q : α → Desk → Prop} {w : Desk},
      p.Holds run (fun w u => ∀ k, (∀ v, ¬ holds b k v) → value u k = value w k) Q w →
      (notify_kio >>= fun _ => p).Holds run
        (fun w u => ∀ k, (∀ v, ¬ holds b k v) → value u k = value w k) Q w := by
    rintro α p Q w hp _ _ rfl
    exact ⟨fun _ _ => rfl, hp⟩
  unfold restore
  cases hb : b.desktop with
  | gnome =>
    refine (run_best_effort_holds (hexec fun c hc => ?_) trivial).mono ?_
    · obtain ⟨k, hk, hc⟩ := List.mem_filterMap.1 hc
      obtain ⟨v, hv, -⟩ := Option.bind_eq_some_iff.1 hc
      exact ⟨v, by rw [gnome_restore_target hc]; exact ⟨hb, mem_ordered.1 hk, hv⟩⟩
    · rintro r u ⟨-, h⟩ hr w₀ hf hw
      exact gnome_restore_did hb (h hr) hf hw
  | kde =>
    rintro _ t ⟨rfl, rfl⟩
    refine ⟨fun _ _ => rfl, ?_⟩
    refine (run_best_effort_holds (hexec fun c hc => ?_) trivial).bind ?_
    · obtain ⟨key, hk, hc⟩ := List.mem_filterMap.1 hc
      obtain ⟨v, hv, -⟩ := Option.map_eq_some_iff.1 hc
      exact ⟨v, by rw [kde_restore_target hc]; exact ⟨hb, hk, hv⟩⟩
    · rintro r u ⟨-, h⟩
      refine hnotify fun hr w₀ hf hw => ?_
      exact kde_restore_did hb (h hr) hf hw
  | other =>
    intro _ w₀ _ hw k
    refine hw k fun v hv => ?_
    cases k with
    | gnome schema key => exact absurd (hb.symm.trans hv.1) (by decide)
    | kde key => exact absurd (hb.symm.trans hv.1) (by decide)

theorem restore_ok : (restore b).Holds (fun t w x u => run t w x u ∧ succeeds t x)
    (fun _ _ => True) (fun r _ => r = .ok ()) w := by
  have hexec : ∀ {cs : List Cmd} {w : Desk}, (run_best_effort exec cs).Holds
      (fun t w x u => run t w x u ∧ succeeds t x) (fun _ _ => True) (fun r _ => r = .ok ()) w := by
    intro cs w
    refine run_best_effort_ok fun c _ w => ?_
    rintro x u ⟨-, a, rfl⟩
    exact ⟨trivial, rfl⟩
  unfold restore
  cases b.desktop with
  | gnome => exact hexec
  | kde => exact fun _ _ _ => ⟨trivial, hexec.bind fun r t hr _ _ _ => ⟨trivial, hr⟩⟩
  | other => rfl

theorem lawful : machine.Lawful where
  back_refl k v := by
    cases k with
    | gnome schema key => exact .inl rfl
    | kde key => rfl
  reboot_value {w u} h k := by
    obtain ⟨hgnome, hkde⟩ : u.gnome = w.gnome ∧ u.kde = w.kde := h
    cases k with
    | gnome schema key => exact congrFun (congrFun hgnome schema) key
    | kde key => exact congrFun hkde key
  run_value {t w u x} h k hk := by
    cases t with
    | detected => rw [show u = w from h.1]
    | gget schema key => rw [show u = w from h.1]
    | kread tool key => rw [show u = w from h.1]
    | set c => exact h.1 k fun he => hk (by rw [he]; rfl)
    | reparse => rw [show u = w from h]
  snapshot_holds {w₀ w} hw := by
    refine (snapshot_holds.weaken fun w u h k => by rw [show u = w from h]).mono ?_
    intro r t hr b hb k v hv
    obtain ⟨-, hgnome, hkde⟩ := hr b hb
    have hgiven : back k (value w₀ k) (value w k) := hw k
    cases k with
    | gnome schema key =>
      obtain ⟨hd, hk, hv⟩ := hv
      have ht : v = (w.gnome schema key).trim :=
        Option.some.inj (hv.symm.trans (hgnome hd (schema, key) hk))
      subst ht
      exact hgiven.imp_left fun h => (Str.trim_trim _).trans h
    | kde key =>
      obtain ⟨hd, hk, hv⟩ := hv
      have ht : v = (w.kde key).trim := Option.some.inj (hv.symm.trans (hkde hd key hk))
      subst ht
      exact (kde_text_trim _).trans hgiven
  restore_holds b w := restore_holds
  restore_ok b w := restore_ok

end Rurge.SystemProxy.Linux
