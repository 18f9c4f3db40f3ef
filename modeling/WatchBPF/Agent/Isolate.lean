/-
The address that isolation blocks. `processLLM` takes it out of the detail text, up to the first colon:
for IPv4 the address of the event, for IPv6 an opening bracket and at most the first group.
-/
import WatchBPF.Agent.Fate
import WatchBPF.Agent.Enforce
import WatchBPF.Lib.ParseIP

namespace WatchBPF.Agent

open WatchBPF.Audit WatchBPF.Net WatchBPF.Tasks

variable {cfg : Config} {ev : Event} {logged : Bool}

/-! ## Addresses in details -/

/-- The sixteen bytes of an address. -/
def Addr.ip16 : Addr → Bytes
  | v4 octets => mapped octets
  | v6 ip => ip.toList

/-- The text stands for the address. -/
def Denotes (text : Bytes) (a : Addr) : Prop := parseIP text = some a.ip16

/-- What a detail has before its port stands for the address, in IPv6 without the brackets. -/
theorem denotes_text (a : Addr) :
    match a with
    | .v4 _ => Denotes a.text a
    | .v6 ip => Denotes (string16 ip.toList) a := by
  cases a with
  | v4 octets => exact parseIP_string4 _ _ _ _
  | v6 ip => exact parseIP_string16 (by simp)

theorem isolatedIP_append {s : Bytes} (h : (0x3A : UInt8) ∉ s) (rest : Bytes) :
    isolatedIP (s ++ lit ":" ++ rest) = s := by
  have hall : ∀ c ∈ s, decide (c ≠ (0x3A : UInt8)) = true := fun c hc => decide_eq_true fun h3 => h (h3 ▸ hc)
  rw [isolatedIP, List.append_assoc]
  refine takeWhile_append_other hall ?_
  rintro c ⟨⟩
  rfl

theorem colon_not_mem_string4 (a b c d : UInt8) : (0x3A : UInt8) ∉ string4 a b c d := by
  intro h
  rcases string4_mem h with h | h
  · exact absurd h (by decide)
  · exact absurd h (by decide)

/-- The bracket in front of an IPv6 address is left in front of what is cut out. -/
theorem not_denotes_bracket (s : Bytes) (a : Addr) : ¬ Denotes (isolatedIP (0x5B :: s)) a := by
  have hcons : isolatedIP (0x5B :: s) = 0x5B :: isolatedIP s := List.takeWhile_cons_of_pos (by decide)
  intro h
  rw [Denotes, hcons] at h
  have hbyte : IPByte 0x5B := ipByte_of_parseIP h _ List.mem_cons_self
  revert hbyte
  unfold IPByte
  decide

/-- The text cut out of a detail stands for the address of the event exactly when that is IPv4. -/
theorem denotes_isolatedIP (ev : ConnectEvent) : Denotes (isolatedIP ev.detail) ev.addr ↔ ev.isIPv6 ≠ 1 := by
  unfold ConnectEvent.detail ConnectEvent.addr
  split
  · rename_i h6
    refine iff_of_false ?_ fun h => h h6
    exact not_denotes_bracket _ _
  · rename_i h4
    refine iff_of_true ?_ h4
    obtain ⟨a, b, c, d⟩ := putUint32 ev.dstAddr
    rw [Denotes, Addr.text, isolatedIP_append (colon_not_mem_string4 a b c d)]
    exact parseIP_string4 a b c d

/-! ## Runs -/

theorem isolate_of_acts {s s' : Shared} {stage stage' : Stage} {a : Action} {as : List Action}
    (h : Past cfg ev logged stage as) (ha : Acts cfg ev s stage a s' stage') :
    ∀ ip, a = .isolate ip → ip = isolatedIP ev.detail ∧ ev.label = .connect := by
  rintro ip rfl
  obtain ⟨c, hc⟩ := warrant_of_acts h ha rfl
  obtain ⟨hip, hl, -⟩ := hc.calledFor
  exact ⟨hip, hl⟩

theorem connect_of_label : ∀ {r : KernelRecord}, r.event.label = .connect → ∃ ev, r = .connect ev
  | .connect ev, _ => ⟨ev, rfl⟩
  | .exec _, h => by cases h
  | .openat _, h => by cases h

/-- In every run, what `IsolateIP` is called with comes from a connect event, and stands for the address of
that event exactly when it is an IPv4 one. -/
theorem isolated_denotes_iff {s₀ : Shared} {w : World} (h : Reachable (program cfg) s₀ w) {k : Nat} {ip : Bytes}
    (hip : (k, Action.isolate ip) ∈ w.trace) :
    ∃ j ev, w.tasks[k]? = some j ∧ j.record = .connect ev ∧ (Denotes ip ev.addr ↔ ev.isIPv6 ≠ 1) := by
  obtain ⟨pre, post, htr⟩ := List.append_of_mem hip
  obtain ⟨j, hj, hiso⟩ := action_of_reachable
    (R := fun ev _ a => ∀ ip, a = .isolate ip → ip = isolatedIP ev.detail ∧ ev.label = .connect)
    (fun _ _ _ _ _ _ _ hpast hacts => isolate_of_acts hpast hacts) h htr
  obtain ⟨rfl, hl⟩ := hiso ip rfl
  obtain ⟨ev, hev⟩ := connect_of_label hl
  refine ⟨j, ev, hj, hev, ?_⟩
  rw [show j.event.detail = ev.detail by rw [Job.event, hev]; rfl]
  exact denotes_isolatedIP ev

/-- The texts that `IsolateIP` was called with. -/
def isolated (trace : List (Nat × Action)) : List Bytes :=
  trace.filterMap fun p => match p.2 with
    | .isolate ip => some ip
    | _ => none

theorem mem_isolated {trace : List (Nat × Action)} {ip : Bytes} (h : ip ∈ isolated trace) :
    ∃ k, (k, Action.isolate ip) ∈ trace := by
  obtain ⟨⟨k, a⟩, hm, ha⟩ := List.mem_filterMap.1 h
  cases a with
  | isolate => cases ha; exact ⟨k, hm⟩
  | _ => cases ha

/-- One event assessed with a score of 95. -/
def killMoves (r : KernelRecord) : List (Move Job Input) :=
  .start { record := r } :: List.replicate 11
    (.act 0 { answer := some (lit "\x7b\"threat_score\":95,\"recommended_action\":\"kill\"\x7d") })

/-- The run of one event isolates just this. -/
def isolatesOne (r : KernelRecord) (ip : Bytes) : Bool :=
  (start liveConfig none none 0).any fun s =>
    (exec (program liveConfig) { shared := s } (killMoves r)).any fun w =>
      isolated w.trace == [ip] && decide (w.tasks.map Job.record = [r])

theorem run_of_isolatesOne {r : KernelRecord} {ip : Bytes} (h : isolatesOne r ip = true) : ∃ s₀ w,
    start liveConfig none none 0 = some s₀ ∧ Reachable (program liveConfig) s₀ w ∧ isolated w.trace = [ip] ∧
      w.tasks.map Job.record = [r] := by
  obtain ⟨s₀, w, h₀, hw, h⟩ := reachable_of_exec h
  rw [Bool.and_eq_true, beq_iff_eq, decide_eq_true_iff] at h
  exact ⟨s₀, w, h₀, hw, h⟩

theorem isolated_denotes_iff_beacon : ∃ (w : World) (j : Job) (ev : ConnectEvent),
    isolated w.trace = [lit "203.0.113.7"] ∧ j ∈ w.tasks ∧ j.record = .connect ev ∧
      (Denotes (lit "203.0.113.7") ev.addr ↔ ev.isIPv6 ≠ 1) := by
  obtain ⟨s₀, w, -, h, hiso, -⟩ := run_of_isolatesOne
    (show isolatesOne beacon (lit "203.0.113.7") = true by decide +kernel)
  obtain ⟨k, hk⟩ := mem_isolated (hiso ▸ List.mem_singleton_self _)
  obtain ⟨j, ev, hj, hev, hiff⟩ := isolated_denotes_iff h hk
  exact ⟨w, j, ev, hiso, List.mem_of_getElem? hj, hev, hiff⟩

/-- `ncat` connecting to `[2001:db8::1]:443`. -/
def beacon6 : ConnectEvent where
  pid := 4242
  uid := 0
  comm := #v[0x6E, 0x63, 0x61, 0x74, 0, 0, 0, 0, 0, 0, 0, 0, 0, 0, 0, 0]
  isIPv6 := 1
  ipv6Addr := #v[0x20, 0x01, 0x0D, 0xB8, 0, 0, 0, 0, 0, 0, 0, 0, 0, 0, 0, 1]
  dstAddr := 0
  dstPort := 443

/-- The connection is killed, and `[2001` is what is blocked: no address at all. -/
theorem isolated_bracket : ∃ (s₀ : Shared) (w : World), start liveConfig none none 0 = some s₀ ∧
    Reachable (program liveConfig) s₀ w ∧ w.tasks.map Job.record = [.connect beacon6] ∧
    isolated w.trace = [lit "[2001"] ∧ ¬ Denotes (lit "[2001") beacon6.addr := by
  obtain ⟨s₀, w, h₀, h, hiso, hrec⟩ := run_of_isolatesOne
    (show isolatesOne (.connect beacon6) (lit "[2001") = true by decide +kernel)
  exact ⟨s₀, w, h₀, h, hrec, hiso, not_denotes_bracket (lit "2001") _⟩

end WatchBPF.Agent
