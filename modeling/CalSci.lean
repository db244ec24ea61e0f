import CalSci.PySequence
import CalSci.LineEditor
import CalSci.Runs
import CalSci.Keys
import CalSci.TextModel
import CalSci.TextInvariant
import CalSci.TextSession
import CalSci.FormField
import CalSci.FormRedraw
import CalSci.FormUpdate
import CalSci.LcdBounds
import CalSci.LcdDraw
import CalSci.TextClear
import CalSci.TextRedraw
import CalSci.AppsModel
import CalSci.AppsRegistry
import CalSci.BorderedMinors
import CalSci.DownloadModel
import CalSci.DownloadOrder
import CalSci.FormPages
import CalSci.GridRows
import CalSci.InstalledApps
import CalSci.MatrixAgree
import CalSci.MatrixMinors
import CalSci.SleepTimer
import CalSci.TextPages
import CalSci.WifiChoice
import CalSci.WifiCredentials
import CalSci.WifiRecord
import CalSci.Determinants
import CalSci.DownloadFiles
import CalSci.EchelonForms
import CalSci.EigenValues
import CalSci.LuDecomposition
import CalSci.RankObjects
import CalSci.EchelonApps
import CalSci.EquationSolvers
import CalSci.FormLabels
import CalSci.FrameBuffer
import CalSci.GraphCurve
import CalSci.GraphSession
import CalSci.GraphWindow
import CalSci.MatrixApps
import CalSci.UpdateFeature
import CalSci.FramebufLog
import CalSci.FramebufLine
import CalSci.FramebufPanel
import CalSci.TinyDbDatabase
import CalSci.IntExpressions
import CalSci.IntBuiltins
import CalSci.MpzText
