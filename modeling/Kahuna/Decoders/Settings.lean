import Kahuna.Decoders.I2c.Decode
import Kahuna.Decoders.Spi.Decode
import Kahuna.Decoders.Uart.Decode
import Kahuna.Wave.Hierarchy

/-!
# Decoder settings and bindings

The model of the rest of `decoders/mod.rs`: the protocols with their roles and settings, and the
binding of the roles to variables.
-/

namespace Decoders

open Wave (VariableRef)

/-- Which protocol a decoder speaks. -/
inductive Protocol where
  | spi
  | i2c
  | uart
  deriving DecidableEq, Repr

/-- A named signal input of a decoder. -/
structure Role where
  name : String
  /-- Whether decoding is impossible without this signal. -/
  required : Bool
  /-- Lowercase substrings that suggest a signal fills this role. -/
  aliases : List String
  deriving DecidableEq, Repr

/-- The roles of SPI. -/
def Spi.ROLES : List Role :=
  [{ name := "SCLK", required := true, aliases := ["sclk", "sck", "scl", "clk"] },
    { name := "MOSI", required := false, aliases := ["mosi", "copi", "sdo", "din", "tx"] },
    { name := "MISO", required := false, aliases := ["miso", "cipo", "sdi", "dout", "rx"] },
    { name := "CS", required := false,
      aliases := ["cs_n", "csn", "ss_n", "ssn", "nss", "cs", "ss"] }]

/-- The roles of I2C. -/
def I2c.ROLES : List Role :=
  [{ name := "SCL", required := true, aliases := ["scl", "i2c_clk", "sclk", "clk"] },
    { name := "SDA", required := true, aliases := ["sda", "i2c_data", "data"] }]

/-- The roles of UART. -/
def Uart.ROLES : List Role :=
  [{ name := "Line", required := true,
     aliases := ["uart", "tx", "rx", "txd", "rxd", "serial", "sout", "sin"] }]

namespace Protocol

/-- The name of the protocol. -/
def display (p : Protocol) : String :=
  match p with
  | .spi => "SPI"
  | .i2c => "I2C"
  | .uart => "UART"

/-- The roles a protocol binds. -/
def roles (p : Protocol) : List Role :=
  match p with
  | .spi => Spi.ROLES
  | .i2c => I2c.ROLES
  | .uart => Uart.ROLES

end Protocol

/-- Per-protocol decoder settings. -/
inductive DecoderSettings where
  | spi (s : Spi.SpiSettings)
  | i2c (s : I2c.I2cSettings)
  | uart (s : Uart.UartSettings)
  deriving DecidableEq, Repr

namespace DecoderSettings

/-- The default settings of a protocol. -/
def forProtocol (p : Protocol) : DecoderSettings :=
  match p with
  | .spi => .spi Spi.SpiSettings.default
  | .i2c => .i2c I2c.I2cSettings.default
  | .uart => .uart Uart.UartSettings.default

/-- The protocol the settings are for. -/
def protocol (s : DecoderSettings) : Protocol :=
  match s with
  | .spi _ => .spi
  | .i2c _ => .i2c
  | .uart _ => .uart

/-- Decode `lanes`, which are indexed to match the roles. -/
def decode (s : DecoderSettings) (lanes : List (Option BitLane)) : List DecodedLane :=
  match s with
  | .spi s => s.decode lanes
  | .i2c s => s.decode lanes
  | .uart s => s.decode lanes

/-- Names of the rows the decoder produces. -/
def laneNames (s : DecoderSettings) : List String :=
  match s with
  | .spi _ => Spi.SpiSettings.laneNames
  | .i2c _ => I2c.I2cSettings.laneNames
  | .uart _ => Uart.UartSettings.laneNames

end DecoderSettings

/-- Signals bound to the roles of a decoder, by the index of the role. -/
structure RoleBindings where
  signals : List (Option VariableRef)
  deriving DecidableEq, Repr

namespace RoleBindings

/-- The derived comparison, which compares references as `VariableRef.eq` does. -/
def eq (a b : RoleBindings) : Bool :=
  a.signals.length == b.signals.length &&
    (List.zip a.signals b.signals).all fun pair =>
      match pair with
      | (some r, some r') => r.eq r'
      | (none, none) => true
      | _ => false

/-- `to_ascii_lowercase().contains(alias)`. -/
def nameContains (name pattern : String) : Bool :=
  decide (pattern.toList <:+: name.toList.map Char.toLower)

/-- Bind the role to the first candidate that is not taken and whose name contains the alias, unless
the role is bound already. -/
def bindRole (candidates : List VariableRef)
    (acc : List (Option VariableRef) × List ℕ) (entry : ℕ × String) :
    List (Option VariableRef) × List ℕ :=
  let (signals, taken) := acc
  if (signals[entry.1]?.getD none).isSome then (signals, taken)
  else
    match candidates.zipIdx.find? fun cand =>
      !taken.contains cand.2 && nameContains cand.1.name entry.2 with
    | none => (signals, taken)
    | some (cand, idx) => (signals.set entry.1 (some cand), idx :: taken)

/-- Bind roles by matching the aliases against the names of the candidates. Longer aliases are more
specific, so they claim signals first; the sort is stable. -/
def guess (protocol : Protocol) (candidates : List VariableRef) : RoleBindings :=
  let roles := protocol.roles
  let byAlias := roles.zipIdx.flatMap fun entry => entry.1.aliases.map fun a => (entry.2, a)
  let sorted := byAlias.insertionSort fun a b => b.2.length ≤ a.2.length
  { signals :=
      (sorted.foldl (bindRole candidates) (List.replicate roles.length none, [])).1 }

/-- Binding a role uses candidates only. -/
theorem mem_bindRole {candidates : List VariableRef}
    {acc : List (Option VariableRef) × List ℕ} {entry : ℕ × String} {r : VariableRef}
    (h : some r ∈ (bindRole candidates acc entry).1) : some r ∈ acc.1 ∨ r ∈ candidates := by
  obtain ⟨signals, taken⟩ := acc
  simp only [bindRole] at h
  split at h
  · exact .inl h
  · split at h
    · exact .inl h
    next cand idx hfind =>
      rcases List.mem_or_eq_of_mem_set h with hmem | heq
      · exact .inl hmem
      · right
        obtain rfl : r = cand := Option.some.inj heq
        obtain ⟨hlt, heq⟩ := List.mem_zipIdx' (List.mem_of_find?_eq_some hfind)
        exact heq ▸ List.getElem_mem hlt

/-- The bindings that are guessed are candidates. -/
theorem mem_guess {protocol : Protocol} {candidates : List VariableRef} {r : VariableRef}
    (h : some r ∈ (guess protocol candidates).signals) : r ∈ candidates := by
  have hfold : ∀ (entries : List (ℕ × String)) (acc : List (Option VariableRef) × List ℕ),
      some r ∈ (entries.foldl (bindRole candidates) acc).1 →
      some r ∈ acc.1 ∨ r ∈ candidates := by
    intro entries
    induction entries with
    | nil => exact fun acc h => .inl h
    | cons entry rest ih =>
      intro acc h
      rcases ih _ h with hacc | hcand
      · exact mem_bindRole hacc
      · exact .inr hcand
  rcases hfold _ _ h with hinit | hcand
  · exact absurd (List.eq_of_mem_replicate hinit) (by simp)
  · exact hcand

end RoleBindings

end Decoders
