import ChipEight.Instruction.Template
import ChipEight.Machine.Call
import ChipEight.Main
import ChipEight.Proofs.Bare.Memory
import ChipEight.Tone
import ChipEight.Proofs.CircularStore
import ChipEight.Proofs.Bare.Screen
import ChipEight.Proofs.Bare.Computer
import ChipEight.Proofs.Execution
import ChipEight.Proofs.Machine
import ChipEight.Proofs.Bare.Machine
import ChipEight.Proofs.Bare.Pattern
import ChipEight.Proofs.Bounds
import ChipEight.Proofs.Failure
import ChipEight.Proofs.CallStack
import ChipEight.Proofs.AddressSpace
import ChipEight.Proofs.Footprint
import ChipEight.Proofs.Arithmetic
import ChipEight.Proofs.Decimal
import ChipEight.Proofs.Independence
import ChipEight.Proofs.Pacing
import ChipEight.Proofs.FreshStart
import ChipEight.Proofs.Random
import ChipEight.Proofs.Keypad
import ChipEight.Proofs.KeyWait
import ChipEight.Proofs.Frames
import ChipEight.Proofs.Timers
import ChipEight.Proofs.Host.Texture
import ChipEight.Proofs.Host.Driving
import ChipEight.Proofs.Host.Showing
import ChipEight.Proofs.Host.Silence
import ChipEight.Proofs.Log
import ChipEight.Proofs.Disassembly
import ChipEight.Proofs.Drawing.Torus
import ChipEight.Proofs.Drawing.Execution
import ChipEight.Proofs.KeyHistory
import ChipEight.Proofs.Host.Rendering
import ChipEight.Proofs.Host.SampleStream
import ChipEight.Proofs.Host.CommandLine
