import Stm32Adaptive.Library.Runs
import Stm32Adaptive.Library.FlashMemory
import Stm32Adaptive.Library.GreedyTokeniser
import Stm32Adaptive.Library.DoubleBuffer
import Stm32Adaptive.Library.CString
import Stm32Adaptive.Library.Framing
import Stm32Adaptive.Library.Interpolation
import Stm32Adaptive.Library.LineEditor
import Stm32Adaptive.Library.Waveform
import Stm32Adaptive.Library.DelayedReads
import Stm32Adaptive.Library.CrashLogic
import Stm32Adaptive.Library.FlashController
import Stm32Adaptive.PeriodPattern
import Stm32Adaptive.MatchWindow
import Stm32Adaptive.Flash
import Stm32Adaptive.PatternPage
import Stm32Adaptive.InterruptedSave
import Stm32Adaptive.SignalBuffer
import Stm32Adaptive.InputCapture
import Stm32Adaptive.CapturePeriods
import Stm32Adaptive.Receiver
import Stm32Adaptive.Reports
import Stm32Adaptive.Decoding
import Stm32Adaptive.Sender
import Stm32Adaptive.SenderRun
import Stm32Adaptive.SenderInterrupts
import Stm32Adaptive.RadioLine
import Stm32Adaptive.RadioLink
import Stm32Adaptive.Ws28xx
import Stm32Adaptive.LedDoubleBuffer
import Stm32Adaptive.LedFrames
import Stm32Adaptive.FadeEngine
import Stm32Adaptive.FadeRun
import Stm32Adaptive.FadeCompletion
import Stm32Adaptive.FadeMonotone
import Stm32Adaptive.LedWire
import Stm32Adaptive.FadeOnWire
import Stm32Adaptive.Printf
import Stm32Adaptive.PrintfNumbers
import Stm32Adaptive.PrintfFormats
import Stm32Adaptive.PrintfOutput
import Stm32Adaptive.PatternReport
import Stm32Adaptive.FlashDriver
import Stm32Adaptive.FlashDriverRun
import Stm32Adaptive.Interface
import Stm32Adaptive.FadeFrame
import Stm32Adaptive.CommandLine
import Stm32Adaptive.PatternUpload
import Stm32Adaptive.UartFraming
import Stm32Adaptive.FlashDiscipline
import Stm32Adaptive.TestTransmission
import Stm32Adaptive.Firmware
import Stm32Adaptive.MainLoop
import Stm32Adaptive.Interleaving
import Stm32Adaptive.ReachableStates
import Stm32Adaptive.HostSession
import Stm32Adaptive.FadeSafety
import Stm32Adaptive.CaptureEnable
