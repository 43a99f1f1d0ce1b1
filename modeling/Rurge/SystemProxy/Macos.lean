import Rurge.SystemProxy.GivesBack

/-!
# macOS: `networksetup`, once per enabled network service

The commands of `sysproxy/macos.rs` and the machine they work on.  A service has a proxy of each
kind and a list of bypass domains; what `networksetup` lists as enabled may be other services at
every call.  A command that fails may have done anything to the setting it is about.

`restore_kind` cannot set an address that was empty: such a proxy is given back by switching it
off (`back`).
-/

namespace Rurge.SystemProxy.Macos

/-- The `-get…`, `-set…` and `-set…state` flags of one proxy kind. -/
inductive Kind
  | web
  | secure
  | socks
  deriving DecidableEq

structure ProxyState where
  enabled : Bool
  server : Str
  port : ℕ
  deriving DecidableEq

structure ServiceBackup where
  web : ProxyState
  secure : ProxyState
  socks : ProxyState
  bypass : List Str

def ServiceBackup.proxy (saved : ServiceBackup) : Kind → ProxyState
  | .web => saved.web
  | .secure => saved.secure
  | .socks => saved.socks

/-- `MacosBackup`'s services, in the order of their names. -/
abbrev Backup := BTreeMap ServiceBackup

/-- The commands that change something. -/
inductive Cmd
  | setproxy (kind : Kind) (service server : Str) (port : ℕ)
  | setproxystate (kind : Kind) (service : Str) (on : Bool)
  | setproxybypassdomains (service : Str) (domains : List Str)

/-- What `networksetup` is run for. -/
inductive Tool
  | listallnetworkservices
  | getproxy (kind : Kind) (service : Str)
  | getproxybypassdomains (service : Str)
  | set (c : Cmd)

/-- What it prints, read. -/
@[reducible] def Reply : Tool → Type
  | .listallnetworkservices => List Str
  | .getproxy _ _ => ProxyState
  | .getproxybypassdomains _ => List Str
  | .set _ => Unit

abbrev Ans (t : Tool) : Type := Except Str (Reply t)

def networksetup (t : Tool) : Prog Tool Ans (Except Str (Reply t)) := Prog.call t

def exec (c : Cmd) : Prog Tool Ans (Except Str Unit) := networksetup (.set c)

/-- The word that stands for no domain at all. -/
def none_word : Str := "Empty".toList

def bypass_cmd (service : Str) (domains : List Str) : Cmd :=
  .setproxybypassdomains service (if domains = [] then [none_word] else domains)

def apply_kind (service : Str) (kind : Kind) : Option SocketAddr → List Cmd
  | some addr =>
    [.setproxy kind service addr.ip.toText addr.port, .setproxystate kind service true]
  | none => [.setproxystate kind service false]

def apply_commands (services : List Str) (settings : ProxySettings) : List Cmd :=
  services.flatMap fun service =>
    apply_kind service .web settings.http ++ apply_kind service .secure settings.https ++
      apply_kind service .socks settings.socks ++ [bypass_cmd service settings.bypass]

def restore_kind (service : Str) (kind : Kind) (state : ProxyState) : List Cmd :=
  if state.server = [] then
    -- `-set…proxy` refuses an empty server; off is all there is to restore
    [.setproxystate kind service false]
  else [.setproxy kind service state.server state.port, .setproxystate kind service state.enabled]

/-- The commands of one service. -/
def restore_service (e : Str × ServiceBackup) : List Cmd :=
  restore_kind e.1 .web e.2.web ++ restore_kind e.1 .secure e.2.secure ++
    restore_kind e.1 .socks e.2.socks ++ [bypass_cmd e.1 e.2.bypass]

def restore_commands (services : Backup) : List Cmd := services.flatMap restore_service

/-- The state of one service after another into the backup. -/
def snapshot_services (services : Backup) : List Str → Prog Tool Ans (Except Str Backup)
  | [] => .done (.ok services)
  | service :: rest =>
    (networksetup (.getproxy .web service)).andThen fun web =>
    (networksetup (.getproxy .secure service)).andThen fun secure =>
    (networksetup (.getproxy .socks service)).andThen fun socks =>
    (networksetup (.getproxybypassdomains service)).andThen fun bypass =>
    snapshot_services (BTreeMap.insert service ⟨web, secure, socks, bypass⟩ services) rest

def snapshot : Prog Tool Ans (Except Str Backup) :=
  (networksetup .listallnetworkservices).andThen (snapshot_services [])

def apply (settings : ProxySettings) : Prog Tool Ans (Except Str Unit) :=
  (networksetup .listallnetworkservices).andThen fun services =>
    if services = [] then
      .done (.error "networksetup lists no enabled network service".toList)
    else run_all exec (apply_commands services settings)

/-- Best effort across services: every command runs, the first error is returned. -/
def restore (saved : Backup) : Prog Tool Ans (Except Str Unit) :=
  run_best_effort exec (restore_commands saved)

/-! ### The machine -/

/-- The proxies and the bypass domains of the network services. -/
structure Mac where
  proxy : Str → Kind → ProxyState
  bypass : Str → List Str

inductive Setting
  | proxy (service : Str) (kind : Kind)
  | bypass (service : Str)
  deriving DecidableEq

inductive Value
  | proxy (state : ProxyState)
  | bypass (domains : List Str)

def Setting.service : Setting → Str
  | .proxy s _ => s
  | .bypass s => s

def value (w : Mac) : Setting → Value
  | .proxy service kind => .proxy (w.proxy service kind)
  | .bypass service => .bypass (w.bypass service)

/-- The domains `-setproxybypassdomains` sets. -/
def domains (l : List Str) : List Str := if l = [none_word] then [] else l

/-- A proxy is back when it is as it was, or when it is off and there was no address to set again;
a bypass list when it is as it was, the word that stands for no domain apart. -/
def back : Setting → Value → Value → Prop
  | _, .proxy p, .proxy q => q = p ∨ p.server = [] ∧ q.enabled = false
  | _, .bypass l, .bypass m => domains m = domains l
  | _, _, _ => False

/-- What is saved of a setting. -/
def ServiceBackup.value (saved : ServiceBackup) : Setting → Value
  | .proxy _ kind => .proxy (saved.proxy kind)
  | .bypass _ => .bypass saved.bypass

def holds (b : Backup) (k : Setting) (v : Value) : Prop :=
  ∃ saved, (k.service, saved) ∈ b ∧ v = saved.value k

def Cmd.target : Cmd → Setting
  | .setproxy kind service _ _ => .proxy service kind
  | .setproxystate kind service _ => .proxy service kind
  | .setproxybypassdomains service _ => .bypass service

/-- What the flags say of the setting before and after; setting an address may switch the proxy
on. -/
def Cmd.effect : Cmd → Value → Value → Prop
  | .setproxy _ _ server port, _, .proxy q => q.server = server ∧ q.port = port
  | .setproxystate _ _ on, .proxy p, .proxy q => q = { p with enabled := on }
  | .setproxybypassdomains _ l, _, .bypass m => m = domains l
  | _, _, _ => False

def run : (t : Tool) → Mac → Ans t → Mac → Prop
  | .listallnetworkservices, w, _, u => u = w
  | .getproxy kind service, w, x, u => u = w ∧ ∀ p, x = .ok p → p = w.proxy service kind
  | .getproxybypassdomains service, w, x, u => u = w ∧ ∀ l, x = .ok l → l = w.bypass service
  | .set c, w, x, u => Undo.Touches value Cmd.target c w u ∧
      (x = .ok () → c.effect (value w c.target) (value u c.target))

def sets : Tool → Option Setting
  | .set c => some c.target
  | _ => none

def machine : Machine where
  Tool := Tool
  Ans := Ans
  Backup := Backup
  snapshot := snapshot
  apply := apply
  restore := restore
  World := Mac
  Setting := Setting
  Value := Value
  value := value
  back := back
  holds := holds
  run := run
  succeeds _ x := ∃ a, x = .ok a
  sets := sets
  reboot w u := u = w

/-! ### Restoring -/

variable {w₀ w u : Mac} {b : Backup}

theorem back_refl (k : Setting) (v : Value) : back k v v := by
  cases v with
  | proxy p => exact .inl rfl
  | bypass l => rfl

/-- A command that did what it is for. -/
abbrev Did := Undo.Did value Cmd.target Cmd.effect

theorem restore_kind_target {service : Str} {kind : Kind} {state : ProxyState} {c : Cmd}
    (hc : c ∈ restore_kind service kind state) : c.target = .proxy service kind := by
  unfold restore_kind at hc
  split_ifs at hc
  · obtain rfl := List.mem_singleton.1 hc
    rfl
  · rcases List.mem_pair.1 hc with rfl | rfl <;> rfl

/-- Restoring one kind sets what was saved, or switches off where no address was. -/
theorem restore_kind_did {service : Str} {kind : Kind} {state : ProxyState}
    (h : Chain Did (restore_kind service kind state) w u) :
    u.proxy service kind = state ∨ state.server = [] ∧ (u.proxy service kind).enabled = false := by
  unfold restore_kind at h
  split_ifs at h with hs
  · obtain ⟨v, ⟨-, he⟩, rfl⟩ := h
    replace he : v.proxy service kind = { w.proxy service kind with enabled := false } := he
    exact .inr ⟨hs, by rw [he]⟩
  · obtain ⟨v, ⟨-, hv⟩, x, ⟨-, hx⟩, rfl⟩ := h
    replace hv : (v.proxy service kind).server = state.server ∧
      (v.proxy service kind).port = state.port := hv
    replace hx : x.proxy service kind = { v.proxy service kind with enabled := state.enabled } := hx
    left
    rw [hx]
    change (⟨state.enabled, _, _⟩ : ProxyState) = state
    rw [hv.1, hv.2]

theorem bypass_cmd_did {service : Str} {l : List Str} (h : Chain Did [bypass_cmd service l] w u) :
    u.bypass service = domains l := by
  obtain ⟨-, he⟩ := Chain.single.1 h
  replace he : u.bypass service = domains (if l = [] then [none_word] else l) := he
  rw [he]
  split_ifs with hl
  · simp [hl, domains]
  · rfl

/-- **Restoring one service** sets all of it and nothing else. -/
theorem restore_service_did {e : Str × ServiceBackup} (h : Chain Did (restore_service e) w u) :
    (∀ k : Setting, k.service ≠ e.1 → value u k = value w k) ∧
    (∀ kind, u.proxy e.1 kind = e.2.proxy kind ∨
      (e.2.proxy kind).server = [] ∧ (u.proxy e.1 kind).enabled = false) ∧
    u.bypass e.1 = domains e.2.bypass := by
  obtain ⟨w₃, h, hbypass⟩ := Chain.append.1 h
  obtain ⟨w₂, h, hsocks⟩ := Chain.append.1 h
  obtain ⟨w₁, hweb, hsecure⟩ := Chain.append.1 h
  have hkeep : ∀ {kind state v x} {k : Setting}, Chain Did (restore_kind e.1 kind state) v x →
      k ≠ .proxy e.1 kind → value x k = value v k := fun h hk =>
    Undo.unchanged h fun c hc => by rw [restore_kind_target hc]; exact hk.symm
  have hlast : ∀ {k : Setting}, k ≠ .bypass e.1 → value u k = value w₃ k := fun hk =>
    Undo.unchanged hbypass fun c hc => by
      obtain rfl := List.mem_singleton.1 hc
      exact hk.symm
  have hproxy : ∀ {v x : Mac} {kind}, value x (.proxy e.1 kind) = value v (.proxy e.1 kind) →
      x.proxy e.1 kind = v.proxy e.1 kind := fun h => Value.proxy.inj h
  refine ⟨fun k hk => ?_, fun kind => ?_, bypass_cmd_did hbypass⟩
  · have hne : ∀ kind, k ≠ .proxy e.1 kind := fun kind h => hk (by rw [h]; rfl)
    rw [hlast fun h => hk (by rw [h]; rfl), hkeep hsocks (hne _), hkeep hsecure (hne _),
      hkeep hweb (hne _)]
  · rw [hproxy (hlast (k := .proxy e.1 kind) (by simp))]
    cases kind with
    | web =>
      rw [hproxy (hkeep hsocks (by simp)), hproxy (hkeep hsecure (by simp))]
      exact restore_kind_did hweb
    | secure =>
      rw [hproxy (hkeep hsocks (by simp))]
      exact restore_kind_did hsecure
    | socks => exact restore_kind_did hsocks

theorem holds_cons {e : Str × ServiceBackup} {k : Setting} {v : Value} :
    holds (e :: b) k v ↔ (k.service = e.1 ∧ v = e.2.value k) ∨ holds b k v := by
  constructor
  · rintro ⟨saved, hs, rfl⟩
    rcases List.mem_cons.1 hs with rfl | hs
    · exact .inl ⟨rfl, rfl⟩
    · exact .inr ⟨saved, hs, rfl⟩
  · rintro (⟨hk, rfl⟩ | ⟨saved, hs, rfl⟩)
    · exact ⟨e.2, by rw [hk]; exact .head b, rfl⟩
    · exact ⟨saved, .tail e hs, rfl⟩

/-- What restoring a faithful value leaves has been given back. -/
theorem back_proxy {service : Str} {kind : Kind} {p saved q : ProxyState}
    (hsaved : back (.proxy service kind) (.proxy p) (.proxy saved))
    (hq : q = saved ∨ saved.server = [] ∧ q.enabled = false) :
    back (.proxy service kind) (.proxy p) (.proxy q) := by
  rcases hsaved with rfl | hp
  · exact hq
  · rcases hq with rfl | hq
    · exact .inr hp
    · exact .inr ⟨hp.1, hq.2⟩

theorem domains_domains (l : List Str) : domains (domains l) = domains l := by
  unfold domains
  split_ifs <;> simp_all

/-- **Every command of a restore done, every setting is back.** -/
theorem restore_commands_did {es : Backup} (h : Chain Did (restore_commands es) w u)
    (hf : machine.Faithful w₀ es)
    (hw : ∀ k, back k (value w₀ k) (value w k) ∨ ∃ v, holds es k v) : machine.Given w₀ u := by
  induction es generalizing w with
  | nil =>
    obtain rfl : w = u := h
    exact fun k => (hw k).resolve_right fun ⟨v, saved, hs, _⟩ => List.not_mem_nil hs
  | cons e es ih =>
    obtain ⟨v, hv, hu⟩ := Chain.append.1 h
    obtain ⟨hother, hproxy, hbypass⟩ := restore_service_did hv
    have hfe : ∀ k : Setting, k.service = e.1 → back k (value w₀ k) (e.2.value k) :=
      fun k hk => hf k _ (holds_cons.2 (.inl ⟨hk, rfl⟩))
    refine ih hu (fun k x hk => hf k x (holds_cons.2 (.inr hk))) fun k => ?_
    by_cases hk : k.service = e.1
    · left
      cases k with
      | proxy service kind =>
        obtain rfl : service = e.1 := hk
        exact back_proxy (hfe (.proxy e.1 kind) rfl) (hproxy kind)
      | bypass service =>
        obtain rfl : service = e.1 := hk
        have hsaved : domains e.2.bypass = domains (w₀.bypass e.1) := hfe (.bypass e.1) rfl
        change domains (v.bypass e.1) = domains (w₀.bypass e.1)
        rw [hbypass, domains_domains, hsaved]
    · rw [hother k hk]
      refine (hw k).imp_right fun ⟨x, hx⟩ => ⟨x, (holds_cons.1 hx).resolve_left fun h => hk h.1⟩

theorem restore_service_target {e : Str × ServiceBackup} {c : Cmd} (hc : c ∈ restore_service e) :
    c.target.service = e.1 := by
  simp only [restore_service, List.mem_append, List.mem_singleton] at hc
  rcases hc with ((hc | hc) | hc) | rfl
  · rw [restore_kind_target hc]
    rfl
  · rw [restore_kind_target hc]
    rfl
  · rw [restore_kind_target hc]
    rfl
  · rfl

/-- A restore touches what its backup holds. -/
theorem restore_commands_target {c : Cmd} (hc : c ∈ restore_commands b) :
    ∃ v, holds b c.target v := by
  obtain ⟨e, he, hc⟩ := List.mem_flatMap.1 hc
  exact ⟨_, e.2, by rw [restore_service_target hc]; exact he, rfl⟩

/-! ### Reading -/

/-- One read into the backup after another, of settings that have all been given back. -/
theorem snapshot_services_holds {services : List Str} (hw : machine.Given w₀ w)
    (hb : machine.Faithful w₀ b) :
    (snapshot_services b services).Holds run (fun w u => ∀ k, value u k = value w k)
      (fun r _ => ∀ b, r = .ok b → machine.Faithful w₀ b) w := by
  induction services generalizing b with
  | nil =>
    intro b' hb'
    cases hb'
    exact hb
  | cons service rest ih =>
    have hproxy : ∀ {kind} {f : ProxyState → Prog Tool Ans (Except Str Backup)}
        {Q : Except Str Backup → Mac → Prop},
        (f (w.proxy service kind)).Holds run (fun w u => ∀ k, value u k = value w k) Q w →
        (∀ e, Q (.error e) w) → ((networksetup (.getproxy kind service)).andThen f).Holds run
          (fun w u => ∀ k, value u k = value w k) Q w := by
      rintro kind f Q hf he x _ ⟨rfl, hx⟩
      refine ⟨fun _ => rfl, ?_⟩
      cases x with
      | ok p => exact hx p rfl ▸ hf
      | error e => exact he e
    have herr : ∀ e : Str, ∀ b : Backup, Except.error e = Except.ok b → machine.Faithful w₀ b :=
      fun e b h => by cases h
    refine hproxy (hproxy (hproxy ?_ herr) herr) herr
    rintro x t ⟨rfl, hx⟩
    refine ⟨fun _ => rfl, ?_⟩
    cases x with
    | error e => exact herr e
    | ok l =>
      obtain rfl := hx l rfl
      refine ih fun k v ⟨saved, hs, hv⟩ => ?_
      rcases BTreeMap.mem_insert hs with he | hs
      · obtain ⟨hk, rfl⟩ := Prod.mk.inj he
        have hval : v = value t k := by
          subst hk
          rw [hv]
          cases k with
          | proxy service kind => cases kind <;> rfl
          | bypass service => rfl
        rw [hval]
        exact hw k
      · exact hb k v ⟨saved, hs, hv⟩

theorem lawful : machine.Lawful where
  back_refl := back_refl
  reboot_value h k := by rw [show _ = _ from h]
  run_value {t w u x} h k hk := by
    cases t with
    | listallnetworkservices => rw [show u = w from h]
    | getproxy kind service => rw [show u = w from h.1]
    | getproxybypassdomains service => rw [show u = w from h.1]
    | set c => exact h.1 k fun he => hk (by rw [he]; rfl)
  snapshot_holds {w₀ w} hw := by
    rintro x _ rfl
    refine ⟨fun _ => rfl, ?_⟩
    cases x with
    | ok services =>
      exact snapshot_services_holds hw fun k v ⟨_, hs, _⟩ => absurd hs List.not_mem_nil
    | error e => exact fun b hb => by cases hb
  restore_holds b w := by
    have hexec : ∀ c ∈ restore_commands b, ∀ w, True → (exec c).Holds run
        (fun w u => ∀ k, (∀ v, ¬ holds b k v) → value u k = value w k)
        (fun r u => True ∧ (r = .ok () → Did c w u)) w := by
      rintro c hc w - x u ⟨htouch, heff⟩
      refine ⟨fun k hk => htouch k fun he => ?_, trivial, fun hx => ⟨htouch, heff hx⟩⟩
      obtain ⟨v, hv⟩ := restore_commands_target hc
      exact hk v (he ▸ hv)
    refine (run_best_effort_holds hexec trivial).mono ?_
    rintro r u ⟨-, h⟩ hr w₀ hf hw
    refine restore_commands_did (h hr) hf fun k => ?_
    by_cases hk : ∃ v, holds b k v
    · exact .inr hk
    · exact .inl (hw k fun v hv => hk ⟨v, hv⟩)
  restore_ok b w := by
    refine run_best_effort_ok fun c _ w => ?_
    rintro x u ⟨-, a, rfl⟩
    exact ⟨trivial, rfl⟩

end Rurge.SystemProxy.Macos
