import Rurge.Rules.Open

/-!
# What a compiled set is made of

Which line went where: `Built` says it of the lines read so far, `addLine_built` that one more line
keeps it, and `compile_built` of a whole set.
-/

namespace Rurge

namespace SetLine

/-- The rule a line is. -/
def kind : SetLine → RuleKind
  | rule sub => sub.kind
  | domain name suffix => if suffix then .domainSuffix name else .domain name

def noResolve : SetLine → Bool
  | rule sub => sub.noResolve
  | domain _ _ => false

def extendedMatching : SetLine → Bool
  | rule sub => sub.extendedMatching
  | domain _ _ => false

/-- `DOMAIN` and `DOMAIN-SUFFIX`, which the domain index holds. -/
def isPlain (line : SetLine) : Bool :=
  match line.kind with
  | .domain _ | .domainSuffix _ => true
  | _ => false

/-- `IP-CIDR` and `IP-CIDR6`, which the address index holds. -/
def isIp (line : SetLine) : Bool :=
  match line.kind with
  | .ipCidr _ | .ipCidr6 _ => true
  | _ => false

/-- `IP-ASN` with a number. -/
def isAsn (line : SetLine) : Bool :=
  match line.kind with
  | .ipAsn _ => true
  | _ => false

/-- What the `i`-th line gives the domain index. -/
def item (i : ℕ) (line : SetLine) : Option DomainIndex.Item :=
  match line.kind with
  | .domain d => (DomainIndex.reverseLabels d).map (⟨·, i, .exact⟩)
  | .domainSuffix d => (DomainIndex.reverseLabels d).map (⟨·, i, .suffix⟩)
  | _ => none

def net4 (i : ℕ) (line : SetLine) : Option (Ipv4Net × ℕ) :=
  match line.kind with
  | .ipCidr net => some (net, i)
  | _ => none

def net6 (i : ℕ) (line : SetLine) : Option (Ipv6Net × ℕ) :=
  match line.kind with
  | .ipCidr6 net => some (net, i)
  | _ => none

/-- The flag a line is evaluated with in a set whose domain rules are extended or not. -/
def extendedIn (setExtended : Bool) (line : SetLine) : Bool :=
  line.extendedMatching || (setExtended && isDomainRule line.kind)

/-- What the `i`-th line gives the list of everything else. -/
def linear (windows : Bool) (sets : SetLookup) (setExtended : Bool) (i : ℕ) (line : SetLine) :
    Option (ℕ × CompiledSubRule) :=
  if line.isPlain || line.isIp || line.isAsn then none
  else some (i, .mk (Matcher.compile windows sets line.kind) line.noResolve
    (line.extendedIn setExtended) line.entry)

end SetLine

namespace CompiledSet

/-- The lines with their numbers, each where it went. -/
structure Built (windows : Bool) (sets : SetLookup) (setExtended : Bool) (lines : List SetLine)
    (b : Building) : Prop where
  domains : b.domains = lines.zipIdx.filterMap fun e => e.1.item e.2
  linear : b.linear = lines.zipIdx.filterMap fun e => e.1.linear windows sets setExtended e.2
  entries : b.entries = lines.map (·.entry)
  ips : b.ips.Holds (lines.zipIdx.filterMap fun e => e.1.net4 e.2)
    (lines.zipIdx.filterMap fun e => e.1.net6 e.2)
  ipsResolve : b.ipsResolve = lines.any fun line => line.isIp && !line.noResolve
  asns_sound : ∀ a i, b.asns.lookup a = some i →
    ∃ line, lines[i]? = some line ∧ line.kind = .ipAsn a
  asns_complete : ∀ line ∈ lines, ∀ a, line.kind = .ipAsn a → b.asns.lookup a ≠ none
  asnsResolve : b.asnsResolve = lines.any fun line => line.isAsn && !line.noResolve

variable {windows : Bool} {sets : SetLookup} {setExtended : Bool} {lines : List SetLine}
  {b : Building}

theorem built_empty : Built windows sets setExtended [] .empty :=
  ⟨rfl, rfl, rfl, IpIndex.holds_empty, rfl, by simp [Building.empty], by simp, rfl⟩

theorem zipIdx_filterMap_concat {β : Type} (f : SetLine × ℕ → Option β) (line : SetLine) :
    (lines ++ [line]).zipIdx.filterMap f =
      lines.zipIdx.filterMap f ++ (f (line, lines.length)).toList := by
  rw [List.zipIdx_append, List.filterMap_append]
  cases h : f (line, lines.length) <;> simp [h]

/-- The AS numbers after one more line. -/
theorem lookup_concat (m : List (ℕ × ℕ)) (a b i : ℕ) :
    (m ++ [(b, i)]).lookup a = (m.lookup a).or (if a = b then some i else none) := by
  induction m with
  | nil =>
    by_cases h : a = b
    · simp [h]
    · have : (a == b) = false := by simpa using h
      simp [List.lookup_cons, h, this]
  | cons e m ih =>
    obtain ⟨c, j⟩ := e
    by_cases h : a = c
    · simp [h]
    · have : (a == c) = false := by simpa using h
      simp [List.lookup_cons, this, ih]

theorem addLine_domains (i : ℕ) (line : SetLine) :
    (addLine windows sets setExtended b i line).domains = b.domains ++ (line.item i).toList := by
  have hadd : ∀ d k, b.domains.add d i k =
      b.domains ++ ((DomainIndex.reverseLabels d).map (⟨·, i, k⟩)).toList := by
    intro d k
    unfold DomainIndexBuilder.add
    cases DomainIndex.reverseLabels d <;> simp
  cases line with
  | domain name suffix => cases suffix <;> exact hadd name _
  | rule sub =>
    obtain ⟨kind, noResolve, extended, raw⟩ := sub
    cases kind with
    | domain d => exact hadd d _
    | domainSuffix d => exact hadd d _
    | _ => simp [addLine, SetLine.item, SetLine.kind, SubRule.kind]

theorem addLine_linear (i : ℕ) (line : SetLine) :
    (addLine windows sets setExtended b i line).linear =
      b.linear ++ (line.linear windows sets setExtended i).toList := by
  cases line with
  | domain name suffix =>
    cases suffix <;> simp [addLine, SetLine.linear, SetLine.isPlain, SetLine.kind]
  | rule sub =>
    obtain ⟨kind, noResolve, extended, raw⟩ := sub
    cases kind <;> simp [addLine, SetLine.linear, SetLine.isPlain, SetLine.isIp, SetLine.isAsn,
      SetLine.kind, SubRule.kind, SetLine.noResolve, SetLine.extendedIn, SetLine.extendedMatching,
      SetLine.entry, SubRule.noResolve, SubRule.extendedMatching, SubRule.raw]

theorem addLine_entries (i : ℕ) (line : SetLine) :
    (addLine windows sets setExtended b i line).entries = b.entries ++ [line.entry] := by
  cases line with
  | domain name suffix => rfl
  | rule sub =>
    obtain ⟨kind, noResolve, extended, raw⟩ := sub
    cases kind <;> rfl

theorem addLine_ips {nets4 : List (Ipv4Net × ℕ)} {nets6 : List (Ipv6Net × ℕ)}
    (h : b.ips.Holds nets4 nets6) (i : ℕ) (line : SetLine) :
    (addLine windows sets setExtended b i line).ips.Holds (nets4 ++ (line.net4 i).toList)
      (nets6 ++ (line.net6 i).toList) := by
  cases line with
  | domain name suffix =>
    cases suffix <;> simpa [addLine, SetLine.net4, SetLine.net6, SetLine.kind] using h
  | rule sub =>
    obtain ⟨kind, noResolve, extended, raw⟩ := sub
    cases kind with
    | ipCidr net => simpa [addLine, SetLine.net4, SetLine.net6, SetLine.kind, SubRule.kind]
        using h.addV4 net i
    | ipCidr6 net => simpa [addLine, SetLine.net4, SetLine.net6, SetLine.kind, SubRule.kind]
        using h.addV6 net i
    | _ => simpa [addLine, SetLine.net4, SetLine.net6, SetLine.kind, SubRule.kind] using h

theorem addLine_ipsResolve (i : ℕ) (line : SetLine) :
    (addLine windows sets setExtended b i line).ipsResolve =
      (b.ipsResolve || (line.isIp && !line.noResolve)) := by
  cases line with
  | domain name suffix => cases suffix <;> simp [addLine, SetLine.isIp, SetLine.kind]
  | rule sub =>
    obtain ⟨kind, noResolve, extended, raw⟩ := sub
    cases kind <;> simp [addLine, SetLine.isIp, SetLine.kind, SubRule.kind, SetLine.noResolve]

theorem addLine_asnsResolve (i : ℕ) (line : SetLine) :
    (addLine windows sets setExtended b i line).asnsResolve =
      (b.asnsResolve || (line.isAsn && !line.noResolve)) := by
  cases line with
  | domain name suffix => cases suffix <;> simp [addLine, SetLine.isAsn, SetLine.kind]
  | rule sub =>
    obtain ⟨kind, noResolve, extended, raw⟩ := sub
    cases kind <;> simp [addLine, SetLine.isAsn, SetLine.kind, SubRule.kind, SetLine.noResolve]

/-- A number keeps its first line. -/
theorem addLine_asns (i : ℕ) (line : SetLine) (a : ℕ) :
    (addLine windows sets setExtended b i line).asns.lookup a =
      (b.asns.lookup a).or (match line.kind with
        | .ipAsn a' => if a = a' then some i else none
        | _ => none) := by
  cases line with
  | domain name suffix => cases suffix <;> simp [addLine, SetLine.kind]
  | rule sub =>
    obtain ⟨kind, noResolve, extended, raw⟩ := sub
    cases kind with
    | ipAsn a' =>
      simp only [addLine, SetLine.kind, SubRule.kind]
      split_ifs with hsome heq heq
      · obtain ⟨j, hj⟩ := Option.isSome_iff_exists.1 hsome
        simp [heq, hj]
      · simp
      · rw [lookup_concat, if_pos heq]
      · rw [lookup_concat, if_neg heq]
    | _ => simp [addLine, SetLine.kind, SubRule.kind]

/-- **One more line goes where it belongs.** -/
theorem addLine_built (h : Built windows sets setExtended lines b) (line : SetLine) :
    Built windows sets setExtended (lines ++ [line])
      (addLine windows sets setExtended b lines.length line) := by
  constructor
  · rw [addLine_domains, zipIdx_filterMap_concat, h.domains]
  · rw [addLine_linear, zipIdx_filterMap_concat, h.linear]
  · rw [addLine_entries, h.entries, List.map_append, List.map_singleton]
  · rw [zipIdx_filterMap_concat, zipIdx_filterMap_concat]
    exact addLine_ips h.ips lines.length line
  · rw [addLine_ipsResolve, h.ipsResolve]
    simp
  · intro a i hi
    rw [addLine_asns] at hi
    cases hl : b.asns.lookup a with
    | some j =>
      obtain rfl : j = i := by simpa [hl] using hi
      obtain ⟨line', hline', hkind⟩ := h.asns_sound a j hl
      exact ⟨line', List.getElem?_append_left (List.getElem?_eq_some_iff.1 hline').1 ▸ hline',
        hkind⟩
    | none =>
      rw [hl, Option.none_or] at hi
      split at hi
      · rename_i a' hkind
        split_ifs at hi with heq
        obtain rfl := Option.some.inj hi
        exact ⟨line, by simp, heq ▸ hkind⟩
      · cases hi
  · intro line' hline' a hkind
    rw [addLine_asns]
    rcases List.mem_append.1 hline' with hline' | hline'
    · have := h.asns_complete line' hline' a hkind
      cases hl : b.asns.lookup a with
      | none => exact absurd hl this
      | some j => simp
    · obtain rfl := List.mem_singleton.1 hline'
      cases hl : b.asns.lookup a <;> simp [hkind]
  · rw [addLine_asnsResolve, h.asnsResolve]
    simp

theorem addLines_built {rest : List SetLine} {b' : Building}
    (h : Built windows sets setExtended lines b)
    (hb' : addLines windows sets setExtended b lines.length rest = some b') :
    Built windows sets setExtended (lines ++ rest) b' := by
  induction rest generalizing lines b with
  | nil =>
    obtain rfl := Option.some.inj hb'
    simpa using h
  | cons line rest ih =>
    unfold addLines at hb'
    split_ifs at hb' with hlt
    have := ih (addLine_built h line) (by simpa using hb')
    simpa using this

/-- Only a set of more lines than a `u32` counts does not compile. -/
theorem addLines_isSome {rest : List SetLine} {i : ℕ} :
    (addLines windows sets setExtended b i rest).isSome = true ↔
      rest = [] ∨ i + rest.length ≤ 2 ^ 32 := by
  induction rest generalizing b i with
  | nil => simp [addLines]
  | cons line rest ih =>
    unfold addLines
    split_ifs with hlt
    · rw [ih]
      simp only [List.length_cons, false_or]
      constructor
      · rintro (rfl | h)
        · simp only [List.length_nil]; omega
        · omega
      · intro h; right; omega
    · simp only [Option.isSome_none, Bool.false_eq_true, List.length_cons, false_or, false_iff]
      omega

end CompiledSet

/-- A compiled set holds its lines. -/
structure CompiledSet.Of (windows : Bool) (sets : SetLookup) (lines : List SetLine)
    (set : CompiledSet) : Prop where
  extended : set.extended = lines.any (·.flagsExtended)
  built : ∃ b, CompiledSet.Built windows sets set.extended lines b ∧
    set.domains = b.domains.build ∧ set.ips = b.ips ∧ set.ipsResolve = b.ipsResolve ∧
    set.asns = b.asns ∧ set.asnsResolve = b.asnsResolve ∧ set.linear = b.linear ∧
    set.entries = b.entries

theorem CompiledSet.compile_of {windows : Bool} {name : Str} {kind : SetKind}
    {lines : List SetLine} {sets : SetLookup} {version : ℕ} {set : CompiledSet}
    (h : CompiledSet.compile windows name kind lines sets version = some set) :
    CompiledSet.Of windows sets lines set := by
  unfold CompiledSet.compile at h
  dsimp only at h
  obtain ⟨b, hb, rfl⟩ := Option.map_eq_some_iff.1 h
  exact ⟨rfl, b, by simpa using addLines_built built_empty hb, rfl, rfl, rfl, rfl, rfl, rfl, rfl⟩

theorem CompiledSet.compile_isSome {windows : Bool} {name : Str} {kind : SetKind}
    {lines : List SetLine} {sets : SetLookup} {version : ℕ} :
    (CompiledSet.compile windows name kind lines sets version).isSome = true ↔
      lines.length ≤ 2 ^ 32 := by
  unfold CompiledSet.compile
  dsimp only
  rw [Option.isSome_map, addLines_isSome]
  cases lines <;> simp

end Rurge
